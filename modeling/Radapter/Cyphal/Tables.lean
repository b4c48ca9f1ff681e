import Radapter.Cyphal.Subscriptions

/-!
# The tables of requests

A worker keeps its requests in flight for each port, under the transfer-ID that they were sent
with, and listens to the responses on a port as long as requests are in flight there. The file has
this invariant, and what a call of `Request` does to the tables.
-/

namespace Radapter.Cyphal

open Library

variable {Dyn : Type}

/-! ## The invariant of the tables -/

/-- The tables of a worker: what is subscribed, and what is known about a request in flight. -/
structure Consistent (w : CyphalWorker Dyn) : Prop where
  ports_distinct : Assoc.Distinct w.reqs
  tids_distinct : ∀ {p port}, w.reqs.lookup p = some port → Assoc.Distinct port.in_flight
  port_id : ∀ {p port}, w.reqs.lookup p = some port → port.port_id = p
  typed : ∀ {p port}, w.reqs.lookup p = some port → port.resp_dyn.isSome = true
  /-- The worker listens to the responses on the ports with requests in flight. -/
  listens : ∀ {p port}, w.reqs.lookup p = some port → port.in_flight ≠ [] →
    ∃ extent, w.canard.lookup (.Response, p) = some (.RequestsPort p, extent)
  listens_only : ∀ {p sub}, w.canard.lookup (.Response, p) = some sub →
    ∃ port, w.reqs.lookup p = some port ∧ port.in_flight ≠ []
  /-- The promises are numbered in the order of the requests. -/
  inFlight_lt : ∀ {p port tid state}, w.reqs.lookup p = some port →
    port.in_flight.lookup tid = some state → state.promise < w.promises
  pushed_lt : ∀ {metadata k}, .push metadata (some k) ∈ w.output → k < w.promises
  /-- A request in flight stands under the port and the transfer-ID that it was sent with. -/
  pushed_at : ∀ {p port tid state metadata}, w.reqs.lookup p = some port →
    port.in_flight.lookup tid = some state → .push metadata (some state.promise) ∈ w.output →
    metadata.port_id = p ∧ metadata.transfer_id = tid

variable {types : CyphalGlobal Dyn}
variable {w w' : CyphalWorker Dyn}

/-- The port of a record that is there. -/
theorem port_of_lookup {p : CanardPortID} {port : RequestsPort Dyn}
    (h : w.reqs.lookup p = some port) : w.port p = port := by
  rw [CyphalWorker.port, h, Option.getD_some]

/-- A port with requests in flight has a record. -/
theorem lookup_of_in_flight {p : CanardPortID} (h : (w.port p).in_flight ≠ []) :
    w.reqs.lookup p = some (w.port p) := by
  unfold CyphalWorker.port at h ⊢
  cases hp : w.reqs.lookup p with
  | none => simp [hp] at h
  | some port => rfl

/-- A request stands in one place. -/
theorem Consistent.place_unique (hw : Consistent w) {k : ℕ} {metadata : CanardTransferMetadata}
    (hpush : .push metadata (some k) ∈ w.output) {p : CanardPortID} {port : RequestsPort Dyn}
    {tid : CanardTransferID} {state : RequestState} (hp : w.reqs.lookup p = some port)
    (htid : port.in_flight.lookup tid = some state) (hk : state.promise = k) :
    p = metadata.port_id ∧ tid = metadata.transfer_id := by
  subst hk
  obtain ⟨hport, hid⟩ := hw.pushed_at hp htid hpush
  exact ⟨hport.symm, hid.symm⟩

/-- Output other than a request does not matter. -/
theorem Consistent.emit (hw : Consistent w) {o : Output}
    (ho : ∀ metadata k, o ≠ .push metadata (some k)) : Consistent (w.emit o) where
  ports_distinct := hw.ports_distinct
  tids_distinct := hw.tids_distinct
  port_id := hw.port_id
  typed := hw.typed
  listens := hw.listens
  listens_only := hw.listens_only
  inFlight_lt := hw.inFlight_lt
  pushed_lt hpush := by
    rcases List.mem_append.mp hpush with hpush | hpush
    · exact hw.pushed_lt hpush
    · exact absurd (List.mem_singleton.mp hpush).symm (ho _ _)
  pushed_at hp htid hpush := by
    rcases List.mem_append.mp hpush with hpush | hpush
    · exact hw.pushed_at hp htid hpush
    · exact absurd (List.mem_singleton.mp hpush).symm (ho _ _)

/-- A record may take a transfer-ID and a response type. -/
theorem Consistent.put_next (hw : Consistent w) {p : CanardPortID} {port : RequestsPort Dyn}
    (hp : w.reqs.lookup p = some port) (resp : Dyn) :
    Consistent { w with reqs := Assoc.put p (port.next resp) w.reqs } := by
  have hold {q : CanardPortID} {record : RequestsPort Dyn}
      (h : (Assoc.put p (port.next resp) w.reqs).lookup q = some record) :
      ∃ old, w.reqs.lookup q = some old ∧ record.in_flight = old.in_flight ∧
        record.port_id = old.port_id ∧ record.resp_dyn.isSome = true := by
    rcases Assoc.of_lookup_put h with ⟨rfl, rfl⟩ | ⟨-, hq⟩
    · exact ⟨port, hp, rfl, rfl, rfl⟩
    · exact ⟨record, hq, rfl, rfl, hw.typed hq⟩
  constructor
  · exact Assoc.distinct_put _ _ hw.ports_distinct
  · intro q record h
    obtain ⟨old, hq, hin, -, -⟩ := hold h
    rw [hin]
    exact hw.tids_distinct hq
  · intro q record h
    obtain ⟨old, hq, -, hid, -⟩ := hold h
    rw [hid]
    exact hw.port_id hq
  · intro q record h
    obtain ⟨_, _, _, _, htyped⟩ := hold h
    exact htyped
  · intro q record h hne
    obtain ⟨old, hq, hin, -, -⟩ := hold h
    exact hw.listens hq (hin ▸ hne)
  · intro q sub hsub
    obtain ⟨old, hq, hne⟩ := hw.listens_only hsub
    by_cases hqp : q = p
    · subst hqp
      obtain rfl : port = old := Option.some.inj (hp.symm.trans hq)
      exact ⟨_, Assoc.lookup_put_self .., hne⟩
    · exact ⟨old, (Assoc.lookup_put_ne hqp ..).trans hq, hne⟩
  · intro q record tid state h htid
    obtain ⟨old, hq, hin, -, -⟩ := hold h
    exact hw.inFlight_lt hq (hin ▸ htid)
  · exact hw.pushed_lt
  · intro q record tid state metadata h htid hpush
    obtain ⟨old, hq, hin, -, -⟩ := hold h
    exact hw.pushed_at hq (hin ▸ htid) hpush

/-! ## What a request does -/

/-- The four ways a call of `Request` ends: without a transfer-ID, with one that is lost, with an
entry in the table but nothing sent, and with a request that is sent. -/
theorem Request_cases [DecidableEq Dyn] (w : CyphalWorker Dyn) (params : RequestParams)
    (msg : QVariant) (err : CanardTxPush) :
    (∃ text, w.Request types params msg err = w.emit (.Raise text)) ∨
    (∃ text resp, w.reqs.lookup params.port = some (w.port params.port) ∧
      w.Request types params msg err =
        CyphalWorker.emit { w with
          reqs := Assoc.put params.port ((w.port params.port).next resp) w.reqs } (.Raise text)) ∨
    (∃ req resp, (w.port params.port).in_flight.lookup (w.port params.port).tid = none ∧
      ((∃ text, w.Request types params msg err =
        (w.insert types req resp params).emit (.Raise text)) ∨
      w.Request types params msg err = (w.insert types req resp params).emit
        (.push (w.requestMeta params) (some w.promises)))) := by
  unfold CyphalWorker.Request
  cases types.lookup_service_types params.type with
  | none => exact Or.inl ⟨_, rfl⟩
  | some found =>
    obtain ⟨req, resp⟩ := found
    right
    simp only
    split_ifs with hconflict hbusy
    · left
      refine ⟨_, resp, ?_, rfl⟩
      unfold CyphalWorker.port at hconflict ⊢
      cases hp : w.reqs.lookup params.port with
      | none => simp [hp, RequestsPort.next] at hconflict
      | some port => rfl
    · left
      refine ⟨_, resp, ?_, rfl⟩
      apply lookup_of_in_flight
      intro hnil
      simp [hnil] at hbusy
    · right
      refine ⟨req, resp, Option.not_isSome_iff_eq_none.mp hbusy, ?_⟩
      cases pushMsg types req msg err with
      | error text => exact Or.inl ⟨text, rfl⟩
      | ok sent => exact Or.inr rfl

/-- The record with a new request. -/
def RequestsPort.added (port : RequestsPort Dyn) (p : CanardPortID) (resp : Dyn)
    (state : RequestState) : RequestsPort Dyn :=
  { port.next resp with port_id := p, in_flight := port.in_flight ++ [(port.tid, state)] }

/-- A request that is put into the table: the record of its port, the subscription to its
responses, and everything else as it was. -/
theorem insert_spec (hw : Consistent w) (req resp : Dyn) (params : RequestParams) :
    (w.insert types req resp params).reqs = Assoc.put params.port
        ((w.port params.port).added params.port resp ⟨w.promises, params.timeout⟩) w.reqs ∧
      (w.insert types req resp params).promises = w.promises + 1 ∧
      (w.insert types req resp params).output = w.output ∧
      (∃ extent, (w.insert types req resp params).canard.lookup (.Response, params.port) =
        some (.RequestsPort params.port, extent)) ∧
      ∀ key ≠ (CanardTransferKind.Response, params.port),
        (w.insert types req resp params).canard.lookup key = w.canard.lookup key := by
  unfold CyphalWorker.insert
  simp only
  split_ifs with hone
  · refine ⟨rfl, rfl, rfl, ⟨_, Assoc.lookup_put_self ..⟩, ?_⟩
    intro key hkey
    exact Assoc.lookup_put_ne hkey ..
  · have hne : (w.port params.port).in_flight ≠ [] := by
      intro hnil
      apply hone
      simp [RequestsPort.next, hnil]
    have hp := lookup_of_in_flight hne
    refine ⟨?_, rfl, rfl, hw.listens hp hne, fun _ _ => rfl⟩
    simp only [RequestsPort.added, RequestsPort.next, hw.port_id hp]

/-- The tables with a new request. -/
theorem Consistent.insert (hw : Consistent w) (req resp : Dyn) {params : RequestParams}
    (hfree : (w.port params.port).in_flight.lookup (w.port params.port).tid = none) :
    Consistent (w.insert types req resp params) := by
  obtain ⟨hreqs, hpromises, houtput, hlisten, hother⟩ := @insert_spec _ types _ hw req resp params
  generalize w.insert types req resp params = w' at hreqs hpromises houtput hlisten hother ⊢
  have hself : w'.reqs.lookup params.port =
      some ((w.port params.port).added params.port resp ⟨w.promises, params.timeout⟩) := by
    rw [hreqs, Assoc.lookup_put_self]
  have hne {q : CanardPortID} (hq : q ≠ params.port) : w'.reqs.lookup q = w.reqs.lookup q := by
    rw [hreqs, Assoc.lookup_put_ne hq]
  have hrecord {q : CanardPortID} {record : RequestsPort Dyn}
      (h : w'.reqs.lookup q = some record) :
      q = params.port ∧
          record = (w.port params.port).added params.port resp ⟨w.promises, params.timeout⟩ ∨
        q ≠ params.port ∧ w.reqs.lookup q = some record := by
    rw [hreqs] at h
    exact Assoc.of_lookup_put h
  have hentry {tid : CanardTransferID} {state : RequestState} (h :
      ((w.port params.port).added params.port resp ⟨w.promises, params.timeout⟩).in_flight.lookup
        tid = some state) :
      (tid = (w.port params.port).tid ∧ state = ⟨w.promises, params.timeout⟩) ∨
        (w.reqs.lookup params.port = some (w.port params.port) ∧
          (w.port params.port).in_flight.lookup tid = some state) := by
    simp only [RequestsPort.added, Assoc.lookup_concat hfree] at h
    split at h
    · next htid => exact Or.inl ⟨htid, (Option.some.inj h).symm⟩
    · right
      refine ⟨lookup_of_in_flight ?_, h⟩
      intro hnil
      simp [hnil] at h
  have hdistinct : Assoc.Distinct (w.port params.port).in_flight := by
    by_cases hnil : (w.port params.port).in_flight = []
    · simp [hnil, Assoc.Distinct]
    · exact hw.tids_distinct (lookup_of_in_flight hnil)
  constructor
  · rw [hreqs]
    exact Assoc.distinct_put _ _ hw.ports_distinct
  · intro q record h
    rcases hrecord h with ⟨rfl, rfl⟩ | ⟨-, hold⟩
    · exact Assoc.distinct_concat hdistinct hfree _
    · exact hw.tids_distinct hold
  · intro q record h
    rcases hrecord h with ⟨rfl, rfl⟩ | ⟨-, hold⟩
    · rfl
    · exact hw.port_id hold
  · intro q record h
    rcases hrecord h with ⟨rfl, rfl⟩ | ⟨-, hold⟩
    · rfl
    · exact hw.typed hold
  · intro q record h hwaits
    rcases hrecord h with ⟨rfl, -⟩ | ⟨hq, hold⟩
    · exact hlisten
    · rw [hother _ (by simpa using hq)]
      exact hw.listens hold hwaits
  · intro q sub hsub
    by_cases hq : q = params.port
    · subst hq
      exact ⟨_, hself, by simp [RequestsPort.added]⟩
    · rw [hother _ (by simpa using hq)] at hsub
      obtain ⟨old, hold, hold'⟩ := hw.listens_only hsub
      exact ⟨old, (hne hq).trans hold, hold'⟩
  · intro q record tid state h htid
    rw [hpromises]
    rcases hrecord h with ⟨rfl, rfl⟩ | ⟨-, hold⟩
    · rcases hentry htid with ⟨-, rfl⟩ | ⟨hold, htid⟩
      · exact Nat.lt_succ_self _
      · exact Nat.lt_succ_of_lt (hw.inFlight_lt hold htid)
    · exact Nat.lt_succ_of_lt (hw.inFlight_lt hold htid)
  · intro metadata k hpush
    rw [houtput] at hpush
    rw [hpromises]
    exact Nat.lt_succ_of_lt (hw.pushed_lt hpush)
  · intro q record tid state metadata h htid hpush
    rw [houtput] at hpush
    rcases hrecord h with ⟨rfl, rfl⟩ | ⟨-, hold⟩
    · rcases hentry htid with ⟨-, rfl⟩ | ⟨hold, htid⟩
      · exact absurd (hw.pushed_lt hpush) (Nat.lt_irrefl _)
      · exact hw.pushed_at hold htid hpush
    · exact hw.pushed_at hold htid hpush

/-- The tables with a new request that is sent. -/
theorem Consistent.insert_push (hw : Consistent w) (req resp : Dyn) {params : RequestParams}
    (hfree : (w.port params.port).in_flight.lookup (w.port params.port).tid = none) :
    Consistent ((w.insert types req resp params).emit
      (.push (w.requestMeta params) (some w.promises))) := by
  have hinsert := @Consistent.insert _ types _ hw req resp _ hfree
  obtain ⟨hreqs, hpromises, houtput, -, -⟩ := @insert_spec _ types _ hw req resp params
  refine ⟨hinsert.ports_distinct, hinsert.tids_distinct, hinsert.port_id, hinsert.typed,
    hinsert.listens, hinsert.listens_only, hinsert.inFlight_lt, ?_, ?_⟩
  · intro metadata k hpush
    rcases List.mem_append.mp hpush with hpush | hpush
    · exact hinsert.pushed_lt hpush
    · obtain ⟨-, hk⟩ := Output.push.inj (List.mem_singleton.mp hpush)
      rw [Option.some.inj hk]
      exact hpromises ▸ Nat.lt_succ_self _
  · intro q record tid state metadata h htid hpush
    rcases List.mem_append.mp hpush with hpush | hpush
    · exact hinsert.pushed_at h htid hpush
    · obtain ⟨rfl, hk⟩ := Output.push.inj (List.mem_singleton.mp hpush)
      have hk := Option.some.inj hk
      -- The promise is new, so the entry is the one that was put in.
      have hnew {q : CanardPortID} {record : RequestsPort Dyn} {tid : CanardTransferID}
          {state : RequestState} (hq : w.reqs.lookup q = some record)
          (htid : record.in_flight.lookup tid = some state) : state.promise ≠ w.promises :=
        Nat.ne_of_lt (hw.inFlight_lt hq htid)
      simp only [CyphalWorker.emit, hreqs] at h
      rcases Assoc.of_lookup_put h with ⟨rfl, rfl⟩ | ⟨-, hold⟩
      · simp only [RequestsPort.added, Assoc.lookup_concat hfree] at htid
        split at htid
        · next hid => exact ⟨rfl, hid.symm⟩
        · have hport := lookup_of_in_flight (w := w) (p := params.port) (by
            intro hnil
            simp [hnil] at htid)
          exact absurd hk (hnew hport htid)
      · exact absurd hk (hnew hold htid)

/-- A request keeps the tables consistent, however it ends. -/
theorem Consistent.request [DecidableEq Dyn] (hw : Consistent w) (params : RequestParams)
    (msg : QVariant) (err : CanardTxPush) : Consistent (w.Request types params msg err) := by
  rcases @Request_cases _ types _ w params msg err with ⟨text, h⟩ | ⟨text, resp, hp, h⟩ |
    ⟨req, resp, hfree, ⟨text, h⟩ | h⟩
  · rw [h]
    exact hw.emit (by simp)
  · rw [h]
    exact (hw.put_next hp resp).emit (by simp)
  · rw [h]
    exact (hw.insert req resp hfree).emit (by simp)
  · rw [h]
    exact hw.insert_push req resp hfree

end Radapter.Cyphal
