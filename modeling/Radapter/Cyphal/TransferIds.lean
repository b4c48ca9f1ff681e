import Mathlib.Data.List.Chain
import Radapter.Cyphal.Requests

/-!
# The transfer-IDs of successive requests

A server that receives two requests of one client on one port expects the transfer-ID to move on
by one, modulo 32. The counter of the worker is in the record of the port, which the timer drops
when no request is in flight there, and a request that fails takes a transfer-ID all the same.

The file shows that the transfer-IDs are consecutive in every run in which neither happens.
-/

namespace Radapter.Cyphal

open Library

variable {Dyn : Type}

/-- The transfer-ID on the wire, if a request is sent on the port. -/
def sentId (p : CanardPortID) : Output → Option (Fin 32)
  | .push metadata (some _) =>
      if metadata.port_id = p then some (wireId metadata.transfer_id) else none
  | _ => none

/-- The transfer-IDs of the requests that were sent on a port, in order. -/
def sentIds (w : CyphalWorker Dyn) (p : CanardPortID) : List (Fin 32) :=
  w.output.filterMap (sentId p)

/-- On every port, each request has the transfer-ID after the one of the request before. -/
def Consecutive (w : CyphalWorker Dyn) : Prop :=
  ∀ p, (sentIds w p).IsChain (fun id next => next = id + 1)

variable (types : CyphalGlobal Dyn)

/-- The request gets a transfer-ID and is sent: its types are known and agree with the requests
before, the transfer-ID is free, and the message is queued. -/
def Sends (w : CyphalWorker Dyn) (params : RequestParams) (msg : QVariant) (err : CanardTxPush) :
    Prop :=
  ∃ req resp, types.lookup_service_types params.type = some (req, resp) ∧
    ((w.port params.port).next resp).resp_dyn = some resp ∧
    (w.port params.port).in_flight.lookup (w.port params.port).tid = none ∧
    pushMsg types req msg err = .ok ()

/-- No transfer-ID is taken without a request being sent, and no counter is dropped that is not a
multiple of 32, on a port on which a request was sent before. -/
def KeepsIds (w : CyphalWorker Dyn) : Action → Prop
  | .Request params msg err =>
      types.lookup_service_types params.type = none ∨ sentIds w params.port = [] ∨
        Sends types w params msg err
  | .checkReqTimeouts =>
      ∀ p port, w.reqs.lookup p = some port → port.sweep.in_flight = [] →
        sentIds w p = [] ∨ wireId port.tid = 0
  | .on_frame _ _ => True

variable {types}
variable {w w' : CyphalWorker Dyn}

/-- The counter of a port is one ahead of the last request. -/
structure InOrder (w : CyphalWorker Dyn) : Prop where
  consecutive : Consecutive w
  ahead : ∀ p, ∀ id ∈ (sentIds w p).getLast?, wireId (w.port p).tid = id + 1

/-- The counter wraps at a multiple of 32. -/
theorem wireId_add_one (tid : CanardTransferID) : wireId (tid + 1) = wireId tid + 1 := by
  apply Fin.ext
  simp only [wireId, UInt8.toNat_add, Fin.val_add]
  have hone : (1 : UInt8).toNat = 1 := rfl
  have hfin : ((1 : Fin 32) : ℕ) = 1 := rfl
  omega

/-- The transfer-IDs with one more output. -/
theorem sentIds_emit (w : CyphalWorker Dyn) (o : Output) (p : CanardPortID) :
    sentIds (w.emit o) p = sentIds w p ++ (sentId p o).toList := by
  rw [sentIds, CyphalWorker.emit, List.filterMap_append, sentIds]
  cases h : sentId p o <;> simp [h]

/-- The order depends on the transfer-IDs and on the counters of the ports where one was sent. -/
theorem InOrder.congr (hw : InOrder w) (hids : ∀ p, sentIds w' p = sentIds w p)
    (htid : ∀ p, sentIds w p ≠ [] → wireId (w'.port p).tid = wireId (w.port p).tid) :
    InOrder w' where
  consecutive p := by
    rw [hids]
    exact hw.consecutive p
  ahead p id hid := by
    rw [hids] at hid
    have hne : sentIds w p ≠ [] := by
      intro hnil
      simp [hnil] at hid
    rw [htid p hne]
    exact hw.ahead p id hid

/-- The port of a record that was stored. -/
theorem port_put (reqs : List (CanardPortID × RequestsPort Dyn)) (p q : CanardPortID)
    (record : RequestsPort Dyn) (hreqs : w'.reqs = Assoc.put p record reqs)
    (hw : w.reqs = reqs) : w'.port q = if q = p then record else w.port q := by
  unfold CyphalWorker.port
  rw [hreqs, hw]
  split
  · next h => rw [h, Assoc.lookup_put_self, Option.getD_some]
  · next h => rw [Assoc.lookup_put_ne h]

/-- A request that is sent has the next transfer-ID. -/
theorem InOrder.insert_push (hw : InOrder w) (hcons : Consistent w) (req resp : Dyn)
    (params : RequestParams) : InOrder ((w.insert types req resp params).emit
      (.push (w.requestMeta params) (some w.promises))) := by
  obtain ⟨hreqs, -, houtput, -, -⟩ := @insert_spec _ types _ hcons req resp params
  have hport (q : CanardPortID) := port_put w.reqs params.port q _ hreqs rfl
  have hids (q : CanardPortID) : sentIds (w.insert types req resp params) q = sentIds w q := by
    rw [sentIds, houtput, sentIds]
  have hself : sentId params.port (.push (w.requestMeta params) (some w.promises)) =
      some (wireId (w.port params.port).tid) := by
    simp [sentId, CyphalWorker.requestMeta]
  have hother {q : CanardPortID} (hq : q ≠ params.port) :
      sentId q (.push (w.requestMeta params) (some w.promises)) = none := by
    simp [sentId, CyphalWorker.requestMeta, Ne.symm hq]
  constructor
  · intro q
    rw [sentIds_emit, hids]
    by_cases hq : q = params.port
    · subst hq
      rw [hself, Option.toList_some, List.isChain_append]
      refine ⟨hw.consecutive _, List.isChain_singleton _, ?_⟩
      intro id hid next hnext
      obtain rfl : wireId (w.port params.port).tid = next := by simpa using hnext
      exact hw.ahead _ id hid
    · rw [hother hq, Option.toList_none, List.append_nil]
      exact hw.consecutive q
  · intro q id hid
    have hsame : ((w.insert types req resp params).emit
        (.push (w.requestMeta params) (some w.promises))).port q =
          (w.insert types req resp params).port q := rfl
    rw [sentIds_emit, hids] at hid
    rw [hsame, hport]
    by_cases hq : q = params.port
    · subst hq
      rw [hself, Option.toList_some, List.getLast?_concat] at hid
      obtain rfl := Option.some.inj hid
      rw [if_pos rfl]
      exact wireId_add_one _
    · rw [hother hq, Option.toList_none, List.append_nil] at hid
      rw [if_neg hq]
      exact hw.ahead q id hid

/-- A request that takes a transfer-ID and fails does no harm where nothing was sent before. -/
theorem InOrder.failed (hw : InOrder w) {p : CanardPortID} (hnone : sentIds w p = [])
    {record : RequestsPort Dyn} (hreqs : w'.reqs = Assoc.put p record w.reqs)
    (houtput : w'.output = w.output) (text : String) : InOrder (w'.emit (.Raise text)) := by
  apply hw.congr
  · intro q
    rw [sentIds_emit, sentIds, houtput]
    simp [sentId, sentIds]
  · intro q hq
    have hne : q ≠ p := by
      rintro rfl
      exact hq hnone
    have hport := port_put w.reqs p q record hreqs rfl
    rw [if_neg hne] at hport
    exact congrArg (fun port => wireId port.tid) hport

/-- Every request under the condition keeps the order. -/
theorem InOrder.request [DecidableEq Dyn] (hw : InOrder w) (hcons : Consistent w)
    {params : RequestParams} {msg : QVariant} {err : CanardTxPush}
    (hkeeps : KeepsIds types w (.Request params msg err)) :
    InOrder (w.Request types params msg err) := by
  rcases hkeeps with hunknown | hempty | ⟨req, resp, htypes, hdyn, hfree, hpush⟩
  · rw [CyphalWorker.Request, hunknown]
    apply hw.congr
    · intro q
      simp [sentIds_emit, sentId]
    · exact fun _ _ => rfl
  · rcases @Request_cases _ types _ w params msg err with ⟨text, h⟩ | ⟨text, resp, -, h⟩ |
      ⟨req, resp, -, ⟨text, h⟩ | h⟩
    · rw [h]
      apply hw.congr
      · intro q
        simp [sentIds_emit, sentId]
      · exact fun _ _ => rfl
    · rw [h]
      exact @InOrder.failed _ _ { w with
        reqs := Assoc.put params.port ((w.port params.port).next resp) w.reqs } hw _ hempty _ rfl
        rfl text
    · rw [h]
      obtain ⟨hreqs, -, houtput, -, -⟩ := @insert_spec _ types _ hcons req resp params
      exact hw.failed hempty hreqs houtput text
    · rw [h]
      exact hw.insert_push hcons req resp params
  · have hsend : w.Request types params msg err = (w.insert types req resp params).emit
        (.push (w.requestMeta params) (some w.promises)) := by
      simp only [CyphalWorker.Request, htypes, hdyn, hfree, hpush, ne_eq, not_true_eq_false,
        if_false, Option.isSome_none, Bool.false_eq_true]
    rw [hsend]
    exact hw.insert_push hcons req resp params

/-- A sweep under the condition keeps the order. -/
theorem InOrder.checkReqTimeouts (hw : InOrder w) (hcons : Consistent w)
    (hkeeps : KeepsIds types w .checkReqTimeouts) : InOrder w.checkReqTimeouts := by
  apply hw.congr
  · exact fun _ => rfl
  · intro q hq
    unfold CyphalWorker.port
    rw [checkReqTimeouts_reqs, Assoc.lookup_filterMap _ hcons.ports_distinct]
    cases hport : w.reqs.lookup q with
    | none => rfl
    | some port =>
      rw [Option.bind_some, RequestsPort.kept]
      split
      · next hnil =>
        rcases hkeeps q port hport (by simpa using hnil) with hempty | hzero
        · exact absurd hempty hq
        · exact hzero.symm
      · rfl

/-- A received transfer keeps the order. -/
theorem InOrder.on_frame (hw : InOrder w) {transfer : CanardRxTransfer} {err : CanardTxPush}
    (h : w.on_frame types transfer err = some w') : InOrder w' := by
  rcases on_frame_cases h with rfl | ⟨o, ho, rfl⟩ | ⟨p, port, state, res, hp, -, rfl⟩
  · exact hw
  · apply hw.congr
    · intro q
      rw [sentIds_emit]
      cases o with
      | push metadata promise =>
        cases promise with
        | none => simp [sentId]
        | some k => exact absurd rfl (ho metadata k)
      | _ => simp [sentId]
    · exact fun _ _ => rfl
  · obtain ⟨hreqs, -, houtput⟩ := remove_spec (w.emit (.resolve state.promise res)) p port
      transfer.metadata.transfer_id
    apply hw.congr
    · intro q
      rw [sentIds, houtput]
      have hids := sentIds_emit w (.resolve state.promise res) q
      simpa [sentId, sentIds] using hids
    · intro q _
      rw [port_put w.reqs p q _ hreqs rfl]
      split
      · next hq => rw [hq, port_of_lookup hp]
      · rfl

/-- Every step under the condition keeps the order. -/
theorem InOrder.step [DecidableEq Dyn] (hw : InOrder w) (hcons : Consistent w) {a : Action}
    (hkeeps : KeepsIds types w a) (h : step types w a = some w') : InOrder w' := by
  cases a with
  | Request params msg err =>
    obtain rfl := Option.some.inj h
    exact hw.request hcons hkeeps
  | checkReqTimeouts =>
    obtain rfl := Option.some.inj h
    exact hw.checkReqTimeouts hcons hkeeps
  | on_frame transfer err => exact hw.on_frame h

/-- In every run whose steps meet the condition, the requests on a port have consecutive
transfer-IDs in every state that is reached. -/
theorem consecutive_of_along [DecidableEq Dyn] {config : CyphalConfig}
    (hnew : construct types config = .ok w) {actions : List Action}
    (hkeeps : Along (step types) (KeepsIds types) w actions) {done : List Action}
    (hdone : done <+: actions) (hrun : run (step types) w done = some w') : Consecutive w' := by
  obtain ⟨-, houtput, -, -, -⟩ := construct_canard hnew
  have hstart : Consistent w ∧ InOrder w := by
    refine ⟨Consistent.construct hnew, ?_, ?_⟩
    · intro p
      simp [sentIds, houtput]
    · intro p id hid
      simp [sentIds, houtput] at hid
  have hstep {w₁ w₂ : CyphalWorker Dyn} {a : Action} (hw : Consistent w₁ ∧ InOrder w₁)
      (hgood : KeepsIds types w₁ a) (hstep : step types w₁ a = some w₂) :
      Consistent w₂ ∧ InOrder w₂ := ⟨hw.1.step hstep, hw.2.step hw.1 hgood hstep⟩
  exact (run_invariant hstep hstart hkeeps hdone hrun).2.consecutive

/-- Two requests, with a sweep while the first one is still in flight. -/
theorem consecutive_in_flight : ∃ w', run (step emptyService) plainWorker
    [.Request ⟨"empty", 1, 7, 5000⟩ .invalid .queued, .checkReqTimeouts,
      .Request ⟨"empty", 1, 7, 5000⟩ .invalid .queued] = some w' ∧ Consecutive w' := by
  have hnew : construct emptyService plainConfig = .ok plainWorker := by rfl
  obtain ⟨w', hrun⟩ : ∃ w', run (step emptyService) plainWorker
      [.Request ⟨"empty", 1, 7, 5000⟩ .invalid .queued, .checkReqTimeouts,
        .Request ⟨"empty", 1, 7, 5000⟩ .invalid .queued] = some w' := ⟨_, rfl⟩
  refine ⟨w', hrun, ?_⟩
  refine consecutive_of_along hnew ?_ (List.prefix_refl _) hrun
  refine ⟨Or.inr (Or.inl rfl), fun w₁ hw₁ => ⟨?_, fun w₂ hw₂ => ⟨?_, fun _ _ => trivial⟩⟩⟩
  · obtain rfl := Option.some.inj hw₁
    intro p port hport hnil
    have hentry := List.mem_singleton.mp (Assoc.mem_of_lookup hport)
    rw [(Prod.mk.inj hentry).2] at hnil
    cases hnil
  · obtain rfl := Option.some.inj hw₁
    obtain rfl := Option.some.inj hw₂
    exact Or.inr (Or.inr ⟨(), (), rfl, rfl, rfl, rfl⟩)

/-- The timer drops the counter of a port whose request has been answered: the next request has
the same transfer-ID again. -/
theorem not_consecutive_idle : ¬ ∀ w', run (step emptyService) plainWorker
    [.Request ⟨"empty", 1, 7, 5000⟩ .invalid .queued, .on_frame ⟨.Response, 7, 1, 0, []⟩ .queued,
      .checkReqTimeouts, .Request ⟨"empty", 1, 7, 5000⟩ .invalid .queued] = some w' →
    Consecutive w' := by
  intro h
  have hids := h _ rfl 7
  revert hids
  decide

end Radapter.Cyphal
