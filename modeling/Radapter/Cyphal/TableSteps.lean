import Radapter.Cyphal.Tables

/-!
# The steps on the tables

The timer makes the requests older and drops those whose time has run out; a response takes its
request out of the table. Both leave the tables consistent, and with them every step does.
-/

namespace Radapter.Cyphal

open Library

variable {Dyn : Type} {types : CyphalGlobal Dyn} {w w' : CyphalWorker Dyn}

/-! ## What the timer does -/

/-- The record of a port after a sweep, if it is kept. -/
def RequestsPort.kept (port : RequestsPort Dyn) : Option (RequestsPort Dyn) :=
  if port.sweep.in_flight.isEmpty then none else some port.sweep

/-- A request after a sweep, if its time has not run out. -/
def RequestState.aged (state : RequestState) : Option RequestState :=
  if state.timeout < 500 then none else some { state with timeout := state.timeout - 500 }

/-- A request keeps its promise as it gets older. -/
theorem promise_of_aged {old state : RequestState} (h : old.aged = some state) :
    state.promise = old.promise := by
  unfold RequestState.aged at h
  split at h
  · cases h
  · cases h
    rfl

/-- A sweep ages every request and drops those whose time has run out. -/
theorem sweep_in_flight (port : RequestsPort Dyn) :
    port.sweep.in_flight =
      port.in_flight.filterMap (fun req => req.2.aged.map (req.1, ·)) := by
  apply List.filterMap_congr
  intro req _
  unfold RequestState.aged
  split <;> rfl

/-- It keeps the ports that have requests left. -/
theorem checkReqTimeouts_reqs (w : CyphalWorker Dyn) :
    w.checkReqTimeouts.reqs = w.reqs.filterMap (fun port => port.2.kept.map (port.1, ·)) := by
  have hlist (ports : List (CanardPortID × RequestsPort Dyn)) :
      (ports.map (fun port => (port.1, port.2.sweep))).filter
          (fun port => !port.2.in_flight.isEmpty) =
        ports.filterMap (fun port => port.2.kept.map (port.1, ·)) := by
    induction ports with
    | nil => rfl
    | cons port rest ih =>
      rw [List.map_cons, List.filter_cons, List.filterMap_cons, ih, RequestsPort.kept]
      cases port.2.sweep.in_flight.isEmpty <;> rfl
  exact hlist w.reqs

/-- The ports that a sweep unsubscribes. -/
def CyphalWorker.dropped (w : CyphalWorker Dyn) : List CanardPortID :=
  ((w.reqs.map (fun port => (port.1, port.2.sweep))).filter
    (fun port => port.2.in_flight.isEmpty)).map (fun port => port.2.port_id)

/-- The subscriptions that are left after a sweep. -/
theorem lookup_checkReqTimeouts (w : CyphalWorker Dyn) (key : CanardTransferKind × CanardPortID) :
    w.checkReqTimeouts.canard.lookup key =
      if key.1 = .Response ∧ key.2 ∈ w.dropped then none else w.canard.lookup key := by
  have hfold (ports : List (CanardPortID × RequestsPort Dyn)) (canard : CanardInstance Dyn) :
      (ports.foldl (fun canard port => canardRxUnsubscribe canard .Response port.2.port_id)
          canard).lookup key =
        if key.1 = .Response ∧ key.2 ∈ ports.map (fun port => port.2.port_id) then none
        else canard.lookup key := by
    induction ports generalizing canard with
    | nil => simp
    | cons port rest ih =>
      rw [List.foldl_cons, ih, canardRxUnsubscribe, List.map_cons]
      by_cases hkey : key = (.Response, port.2.port_id)
      · subst hkey
        simp [Assoc.lookup_erase_self]
      · rw [Assoc.lookup_erase_ne hkey]
        have hne : key.1 = .Response → key.2 ≠ port.2.port_id := by
          intro hkind hport
          exact hkey (Prod.ext hkind hport)
        by_cases hkind : key.1 = .Response
        · simp only [List.mem_cons, hne hkind, false_or]
        · simp [hkind]
  exact hfold _ _

/-- The requests in flight after a sweep. -/
theorem Consistent.lookup_sweep (hw : Consistent w) {p : CanardPortID} {record : RequestsPort Dyn}
    (h : w.checkReqTimeouts.reqs.lookup p = some record) :
    ∃ port, w.reqs.lookup p = some port ∧ record = port.sweep ∧ record.in_flight ≠ [] ∧
      ∀ tid, record.in_flight.lookup tid = (port.in_flight.lookup tid).bind RequestState.aged := by
  rw [checkReqTimeouts_reqs, Assoc.lookup_filterMap _ hw.ports_distinct] at h
  obtain ⟨port, hp, hkept⟩ := Option.bind_eq_some_iff.mp h
  unfold RequestsPort.kept at hkept
  split at hkept
  · cases hkept
  · next hne =>
    obtain rfl := Option.some.inj hkept
    refine ⟨port, hp, rfl, by simpa using hne, ?_⟩
    intro tid
    rw [sweep_in_flight, Assoc.lookup_filterMap _ (hw.tids_distinct hp)]

/-- A sweep keeps the tables consistent. -/
theorem Consistent.checkReqTimeouts (hw : Consistent w) : Consistent w.checkReqTimeouts := by
  have hentry {p : CanardPortID} {record : RequestsPort Dyn} {tid : CanardTransferID}
      {state : RequestState} (h : w.checkReqTimeouts.reqs.lookup p = some record)
      (htid : record.in_flight.lookup tid = some state) :
      ∃ port old, w.reqs.lookup p = some port ∧ port.in_flight.lookup tid = some old ∧
        state.promise = old.promise := by
    obtain ⟨port, hp, rfl, -, hlookup⟩ := hw.lookup_sweep h
    rw [hlookup] at htid
    obtain ⟨old, hold, haged⟩ := Option.bind_eq_some_iff.mp htid
    exact ⟨port, old, hp, hold, promise_of_aged haged⟩
  -- The ports that are unsubscribed are those whose records are dropped.
  have hdropped (p : CanardPortID) :
      p ∈ w.dropped ↔ ∃ port, w.reqs.lookup p = some port ∧ port.sweep.in_flight = [] := by
    simp only [CyphalWorker.dropped, List.mem_map, List.mem_filter, List.isEmpty_iff]
    constructor
    · rintro ⟨_, ⟨⟨e, he, rfl⟩, hnil⟩, rfl⟩
      have hlookup := Assoc.lookup_of_mem hw.ports_distinct he
      have hid := hw.port_id hlookup
      exact ⟨e.2, by rw [← hlookup, ← hid]; rfl, hnil⟩
    · rintro ⟨port, hp, hnil⟩
      have hid := hw.port_id hp
      exact ⟨_, ⟨⟨(p, port), Assoc.mem_of_lookup hp, rfl⟩, hnil⟩, hid⟩
  constructor
  · rw [checkReqTimeouts_reqs]
    exact Assoc.distinct_filterMap _ hw.ports_distinct
  · intro p record h
    obtain ⟨port, hp, rfl, -, -⟩ := hw.lookup_sweep h
    rw [sweep_in_flight]
    exact Assoc.distinct_filterMap _ (hw.tids_distinct hp)
  · intro p record h
    obtain ⟨port, hp, rfl, -, -⟩ := hw.lookup_sweep h
    have hid := hw.port_id hp
    exact hid
  · intro p record h
    obtain ⟨port, hp, rfl, -, -⟩ := hw.lookup_sweep h
    have htyped := hw.typed hp
    exact htyped
  · intro p record h hne
    obtain ⟨port, hp, rfl, -, hlookup⟩ := hw.lookup_sweep h
    have hport : port.in_flight ≠ [] := by
      intro hnil
      simp [sweep_in_flight, hnil] at hne
    have hkept : p ∉ w.dropped := by
      rw [hdropped]
      rintro ⟨other, hother, hnil⟩
      obtain rfl := Option.some.inj (hp.symm.trans hother)
      exact hne hnil
    rw [lookup_checkReqTimeouts, if_neg (fun h => hkept h.2)]
    exact hw.listens hp hport
  · intro p sub hsub
    rw [lookup_checkReqTimeouts] at hsub
    split at hsub
    · cases hsub
    · next hkept =>
      obtain ⟨port, hp, -⟩ := hw.listens_only hsub
      rw [not_and, hdropped] at hkept
      have hne : port.sweep.in_flight ≠ [] := fun hnil => hkept rfl ⟨port, hp, hnil⟩
      refine ⟨port.sweep, ?_, hne⟩
      rw [checkReqTimeouts_reqs, Assoc.lookup_filterMap _ hw.ports_distinct, hp, Option.bind_some,
        RequestsPort.kept, if_neg (by simpa using hne)]
  · intro p record tid state h htid
    obtain ⟨port, old, hp, hold, hpromise⟩ := hentry h htid
    rw [hpromise]
    exact hw.inFlight_lt hp hold
  · exact hw.pushed_lt
  · intro p record tid state metadata h htid hpush
    obtain ⟨port, old, hp, hold, hpromise⟩ := hentry h htid
    rw [hpromise] at hpush
    exact hw.pushed_at hp hold hpush

/-! ## What a received transfer does -/

/-- The tables without a request. -/
theorem remove_spec (w : CyphalWorker Dyn) (p : CanardPortID) (port : RequestsPort Dyn)
    (curr : CanardTransferID) :
    (w.remove p port curr).reqs =
        Assoc.put p { port with in_flight := Assoc.erase curr port.in_flight } w.reqs ∧
      (w.remove p port curr).promises = w.promises ∧
      (w.remove p port curr).output = w.output := by
  unfold CyphalWorker.remove
  simp only
  split <;> exact ⟨rfl, rfl, rfl⟩

/-- Removing a request keeps the tables consistent. -/
theorem Consistent.remove (hw : Consistent w) {p : CanardPortID} {port : RequestsPort Dyn}
    (hp : w.reqs.lookup p = some port) (curr : CanardTransferID) :
    Consistent (w.remove p port curr) := by
  obtain ⟨hreqs, hpromises, houtput⟩ := remove_spec w p port curr
  have hcanard (key : CanardTransferKind × CanardPortID) :
      (w.remove p port curr).canard.lookup key =
        if key = (.Response, p) ∧ Assoc.erase curr port.in_flight = [] then none
        else w.canard.lookup key := by
    unfold CyphalWorker.remove
    simp only [List.isEmpty_iff, canardRxUnsubscribe, hw.port_id hp]
    split
    · next hnil =>
      by_cases hkey : key = (.Response, p)
      · rw [if_pos ⟨hkey, hnil⟩, hkey, Assoc.lookup_erase_self]
      · rw [if_neg (fun h => hkey h.1), Assoc.lookup_erase_ne hkey]
    · next hne => rw [if_neg (fun h => hne h.2)]
  generalize w.remove p port curr = w' at hreqs hcanard hpromises houtput ⊢
  have hrecord {q : CanardPortID} {record : RequestsPort Dyn} (h : w'.reqs.lookup q = some record) :
      (q = p ∧ record = { port with in_flight := Assoc.erase curr port.in_flight }) ∨
        (q ≠ p ∧ w.reqs.lookup q = some record) := by
    rw [hreqs] at h
    exact Assoc.of_lookup_put h
  have hentry {q : CanardPortID} {record : RequestsPort Dyn} {tid : CanardTransferID}
      {state : RequestState} (h : w'.reqs.lookup q = some record)
      (htid : record.in_flight.lookup tid = some state) :
      ∃ old, w.reqs.lookup q = some old ∧ old.in_flight.lookup tid = some state := by
    rcases hrecord h with ⟨rfl, rfl⟩ | ⟨-, hold⟩
    · refine ⟨port, hp, ?_⟩
      by_cases hcurr : tid = curr
      · subst hcurr
        simp [Assoc.lookup_erase_self] at htid
      · rwa [Assoc.lookup_erase_ne hcurr] at htid
    · exact ⟨record, hold, htid⟩
  constructor
  · rw [hreqs]
    exact Assoc.distinct_put _ _ hw.ports_distinct
  · intro q record h
    rcases hrecord h with ⟨rfl, rfl⟩ | ⟨-, hold⟩
    · exact Assoc.distinct_erase _ (hw.tids_distinct hp)
    · exact hw.tids_distinct hold
  · intro q record h
    rcases hrecord h with ⟨rfl, rfl⟩ | ⟨-, hold⟩
    · have hid := hw.port_id hp
      exact hid
    · exact hw.port_id hold
  · intro q record h
    rcases hrecord h with ⟨rfl, rfl⟩ | ⟨-, hold⟩
    · have htyped := hw.typed hp
      exact htyped
    · exact hw.typed hold
  · intro q record h hne
    rw [hcanard]
    rcases hrecord h with ⟨rfl, rfl⟩ | ⟨hq, hold⟩
    · rw [if_neg (fun hnil => hne hnil.2)]
      apply hw.listens hp
      intro hnil
      simp [hnil, Assoc.erase] at hne
    · rw [if_neg (fun h => hq (Prod.ext_iff.mp h.1).2)]
      exact hw.listens hold hne
  · intro q sub hsub
    rw [hcanard] at hsub
    split at hsub
    · cases hsub
    · next hkeep =>
      obtain ⟨old, hold, hne⟩ := hw.listens_only hsub
      by_cases hq : q = p
      · subst hq
        rw [not_and] at hkeep
        exact ⟨_, by rw [hreqs, Assoc.lookup_put_self], hkeep rfl⟩
      · exact ⟨old, by rw [hreqs, Assoc.lookup_put_ne hq, hold], hne⟩
  · intro q record tid state h htid
    obtain ⟨old, hold, hstate⟩ := hentry h htid
    rw [hpromises]
    exact hw.inFlight_lt hold hstate
  · intro metadata k hpush
    rw [houtput] at hpush
    rw [hpromises]
    exact hw.pushed_lt hpush
  · intro q record tid state metadata h htid hpush
    obtain ⟨old, hold, hstate⟩ := hentry h htid
    rw [houtput] at hpush
    exact hw.pushed_at hold hstate hpush

/-- What `on_frame` changes: nothing, the output, or the request that is answered. -/
theorem on_frame_cases {transfer : CanardRxTransfer} {err : CanardTxPush}
    (h : w.on_frame types transfer err = some w') :
    w' = w ∨ (∃ o, (∀ metadata k, o ≠ .push metadata (some k)) ∧ w' = w.emit o) ∨
      ∃ p port state res, w.reqs.lookup p = some port ∧
        port.in_flight.lookup transfer.metadata.transfer_id = some state ∧
        w' = (w.emit (.resolve state.promise res)).remove p port transfer.metadata.transfer_id := by
  unfold CyphalWorker.on_frame at h
  split at h
  · exact Or.inl (Option.some.inj h).symm
  · right
    split at h
    · split at h
      · exact Or.inl ⟨_, by simp, (Option.some.inj h).symm⟩
      · exact Or.inl ⟨_, by simp, (Option.some.inj h).symm⟩
    · next p _ _ =>
      unfold CyphalWorker.onResponse at h
      simp only [Option.bind_eq_bind, Option.bind_eq_some_iff] at h
      obtain ⟨port, hp, state, hstate, dyn, -, h⟩ := h
      split at h
      · exact Or.inl ⟨_, by simp, (Option.some.inj h).symm⟩
      · next res _ => exact Or.inr ⟨p, port, state, res, hp, hstate, (Option.some.inj h).symm⟩
    · split at h
      · exact Or.inl ⟨_, by simp, (Option.some.inj h).symm⟩
      · exact Or.inl ⟨_, by simp, (Option.some.inj h).symm⟩
    · split at h
      · exact Or.inl ⟨_, by simp, (Option.some.inj h).symm⟩
      · exact Or.inl ⟨_, by simp, (Option.some.inj h).symm⟩
    · cases h

/-- A received transfer keeps the tables consistent. -/
theorem Consistent.on_frame (hw : Consistent w) {transfer : CanardRxTransfer} {err : CanardTxPush}
    (h : w.on_frame types transfer err = some w') : Consistent w' := by
  rcases on_frame_cases h with rfl | ⟨o, ho, rfl⟩ | ⟨p, port, state, res, hp, -, rfl⟩
  · exact hw
  · exact hw.emit ho
  · exact Consistent.remove (hw.emit (by simp)) hp _

/-- Every step keeps the tables consistent. -/
theorem Consistent.step [DecidableEq Dyn] (hw : Consistent w) {a : Action}
    (h : step types w a = some w') : Consistent w' := by
  cases a with
  | Request params msg err =>
    obtain rfl := Option.some.inj h
    exact hw.request params msg err
  | checkReqTimeouts =>
    obtain rfl := Option.some.inj h
    exact hw.checkReqTimeouts
  | on_frame transfer err => exact hw.on_frame h

/-- The tables of a new worker are consistent. -/
theorem Consistent.construct {config : CyphalConfig} (h : construct types config = .ok w) :
    Consistent w := by
  obtain ⟨hreqs, houtput, hresponse, -, -⟩ := construct_canard h
  constructor
  · simp [hreqs, Assoc.Distinct]
  · simp [hreqs]
  · simp [hreqs]
  · simp [hreqs]
  · simp [hreqs]
  · intro p sub hsub
    simp [hresponse] at hsub
  · simp [hreqs]
  · simp [houtput]
  · simp [hreqs]

end Radapter.Cyphal
