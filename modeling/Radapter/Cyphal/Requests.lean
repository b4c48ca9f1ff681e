import Radapter.Cyphal.TableSteps
import Radapter.Library.Runs

/-!
# Requests and their responses

A request in flight waits for the response of the server it was sent to, on its port, with the
transfer-ID that it had on the wire. The worker looks a response up under the five bits of its
transfer-ID, in a table that has the eight bits of the counter as keys and knows nothing about
servers.

The file says in which states a response is taken to the request that waits for it.
-/

namespace Radapter.Cyphal

open Library

variable {Dyn : Type}

/-- The request was sent to the server, on the port, with the transfer-ID on the wire. -/
def SentTo (w : CyphalWorker Dyn) (promise : ℕ) (server : CanardNodeID) (port : CanardPortID)
    (id : Fin 32) : Prop :=
  ∃ metadata, .push metadata (some promise) ∈ w.output ∧ metadata.remote_node_id = server ∧
    metadata.port_id = port ∧ wireId metadata.transfer_id = id

/-- The request is in flight: it was made, and it has neither been answered nor dropped. -/
def InFlight (w : CyphalWorker Dyn) (promise : ℕ) : Prop :=
  ∃ p port tid state, w.reqs.lookup p = some port ∧ port.in_flight.lookup tid = some state ∧
    state.promise = promise

/-- The request in flight waits for this response. -/
def WaitsFor (w : CyphalWorker Dyn) (transfer : CanardRxTransfer) (promise : ℕ) : Prop :=
  InFlight w promise ∧
    SentTo w promise transfer.remote_node_id transfer.port_id transfer.transfer_id

variable (types : CyphalGlobal Dyn)

/-- A response resolves the requests that wait for it and no other; a response that none waits for
changes nothing. -/
def ResolvesExactly (w : CyphalWorker Dyn) : Action → Prop
  | .on_frame transfer err => transfer.transfer_kind = .Response →
      (∀ k, WaitsFor w transfer k → ∃ w' res, w.on_frame types transfer err = some w' ∧
        w'.output = w.output ++ [.resolve k res] ∧ ¬ InFlight w' k ∧
        ∀ j ≠ k, InFlight w j → InFlight w' j) ∧
      ((∀ k, ¬ WaitsFor w transfer k) → w.on_frame types transfer err = some w)
  | _ => True

/-- No request is in flight on the port of the response. Or the port is not that of
`uavcan.node.GetInfo`, the payload can be deserialized, the request that the table of the port has
under the transfer-ID of the response was sent to the server that answers, and no other request in
the table was sent there with the same transfer-ID on the wire. -/
def Answers (w : CyphalWorker Dyn) : Action → Prop
  | .on_frame transfer _ => transfer.transfer_kind = .Response →
      (w.port transfer.port_id).in_flight = [] ∨
      transfer.port_id ≠ uavcan_node_GetInfo_1_0_FIXED_PORT_ID_ ∧
      (∃ dyn res, (w.port transfer.port_id).resp_dyn = some dyn ∧
        types.deserialize dyn transfer.payload = .ok res) ∧
      (∃ state, (w.port transfer.port_id).in_flight.lookup transfer.metadata.transfer_id =
        some state ∧
        SentTo w state.promise transfer.remote_node_id transfer.port_id transfer.transfer_id) ∧
      ∀ tid state, (w.port transfer.port_id).in_flight.lookup tid = some state →
        SentTo w state.promise transfer.remote_node_id transfer.port_id transfer.transfer_id →
        tid = transfer.metadata.transfer_id
  | _ => True

variable {types}
variable {w w' : CyphalWorker Dyn}

/-! ## Where responses go -/

/-- The requests that wait for a response stand in the table of its port. -/
theorem Consistent.waitsFor_iff (hw : Consistent w) (transfer : CanardRxTransfer) (k : ℕ) :
    WaitsFor w transfer k ↔
      ∃ tid state, (w.port transfer.port_id).in_flight.lookup tid = some state ∧
        state.promise = k ∧
        SentTo w k transfer.remote_node_id transfer.port_id transfer.transfer_id := by
  constructor
  · rintro ⟨⟨p, port, tid, state, hp, htid, hk⟩, hsent⟩
    obtain ⟨metadata, hpush, -, hport, -⟩ := id hsent
    obtain ⟨rfl, -⟩ := hw.place_unique hpush hp htid hk
    rw [← hport, port_of_lookup hp]
    exact ⟨tid, state, htid, hk, hport ▸ hsent⟩
  · rintro ⟨tid, state, htid, hk, hsent⟩
    have hne : (w.port transfer.port_id).in_flight ≠ [] := by
      intro hnil
      simp [hnil] at htid
    exact ⟨⟨_, _, tid, state, lookup_of_in_flight hne, htid, hk⟩, hsent⟩

/-- Without a request in flight on its port, a response is not even accepted. -/
theorem Consistent.on_frame_idle (hw : Consistent w) {transfer : CanardRxTransfer}
    (hkind : transfer.transfer_kind = .Response)
    (hidle : (w.port transfer.port_id).in_flight = []) (err : CanardTxPush) :
    w.on_frame types transfer err = some w := by
  have hnone : w.canard.lookup (.Response, transfer.port_id) = none := by
    cases hsub : w.canard.lookup (.Response, transfer.port_id) with
    | none => rfl
    | some sub =>
      obtain ⟨port, hp, hne⟩ := hw.listens_only hsub
      rw [port_of_lookup hp] at hidle
      exact absurd hidle hne
  rw [CyphalWorker.on_frame, hkind, hnone]

/-- With requests in flight on its port, a response gets to the branch for responses, unless the
port is that of `uavcan.node.GetInfo`. -/
theorem Consistent.on_frame_busy (hw : Consistent w) {transfer : CanardRxTransfer}
    (hkind : transfer.transfer_kind = .Response)
    (hbusy : (w.port transfer.port_id).in_flight ≠ []) (err : CanardTxPush) :
    w.on_frame types transfer err =
      if transfer.port_id = uavcan_node_GetInfo_1_0_FIXED_PORT_ID_ then none
      else w.onResponse types transfer.port_id transfer := by
  obtain ⟨extent, hsub⟩ := hw.listens (lookup_of_in_flight hbusy) hbusy
  rw [CyphalWorker.on_frame, hkind, hsub, CanardRxTransfer.branch, hkind]
  by_cases hinfo : transfer.port_id = uavcan_node_GetInfo_1_0_FIXED_PORT_ID_
  · simp only [if_pos hinfo]
  · simp only [if_neg hinfo]

/-- Something that was sent can be seen. -/
private theorem emit_ne (w : CyphalWorker Dyn) (o : Output) : w ≠ w.emit o := by
  intro h
  have hlen := congrArg (fun w => w.output.length) h
  simp [CyphalWorker.emit] at hlen

/-- A response that ends in undefined behaviour or in an error is not handled. -/
theorem not_resolvesExactly {transfer : CanardRxTransfer} {err : CanardTxPush}
    (hkind : transfer.transfer_kind = .Response)
    (h : w.on_frame types transfer err = none ∨
      ∃ text, w.on_frame types transfer err = some (w.emit (.Error text))) :
    ¬ ResolvesExactly types w (.on_frame transfer err) := by
  intro hresolves
  obtain ⟨hwaits, hnone⟩ := hresolves hkind
  by_cases hk : ∃ k, WaitsFor w transfer k
  · obtain ⟨k, hk⟩ := hk
    obtain ⟨w', res, hw', houtput, -, -⟩ := hwaits k hk
    rcases h with h | ⟨text, h⟩
    · simp [h] at hw'
    · rw [h] at hw'
      obtain rfl := Option.some.inj hw'
      simp [CyphalWorker.emit] at houtput
  · have hsame := hnone (by simpa using hk)
    rcases h with h | ⟨text, h⟩
    · simp [h] at hsame
    · exact emit_ne w _ (Option.some.inj (hsame.symm.trans h))

/-- Taking an answered request out of the table leaves every other request where it is. -/
theorem Consistent.remove_inFlight (hw : Consistent w) {p : CanardPortID} {port : RequestsPort Dyn}
    (hp : w.reqs.lookup p = some port) {curr : CanardTransferID} {state : RequestState}
    (hstate : port.in_flight.lookup curr = some state) {metadata : CanardTransferMetadata}
    (hpush : .push metadata (some state.promise) ∈ w.output) :
    ¬ InFlight (w.remove p port curr) state.promise ∧
      ∀ j ≠ state.promise, InFlight w j → InFlight (w.remove p port curr) j := by
  obtain ⟨hreqs, -, houtput⟩ := remove_spec w p port curr
  have hself : (w.remove p port curr).reqs.lookup p =
      some { port with in_flight := Assoc.erase curr port.in_flight } := by
    rw [hreqs, Assoc.lookup_put_self]
  constructor
  · rintro ⟨q, record, tid, other, hq, htid, hk⟩
    -- The push of the request says where its entry would have to be.
    obtain ⟨hpPort, hcurr⟩ := hw.place_unique hpush hp hstate rfl
    obtain ⟨hqPort, htidId⟩ := (hw.remove hp curr).place_unique (houtput ▸ hpush) hq htid hk
    obtain rfl : q = p := hqPort.trans hpPort.symm
    obtain rfl : tid = curr := htidId.trans hcurr.symm
    obtain rfl := Option.some.inj (hself.symm.trans hq)
    simp [Assoc.lookup_erase_self] at htid
  · rintro j hj ⟨q, record, tid, other, hq, htid, hk⟩
    by_cases hqp : q = p
    · subst hqp
      obtain rfl := Option.some.inj (hp.symm.trans hq)
      have htidCurr : tid ≠ curr := by
        rintro rfl
        obtain rfl := Option.some.inj (hstate.symm.trans htid)
        exact hj hk.symm
      exact ⟨q, _, tid, other, hself, (Assoc.lookup_erase_ne htidCurr _).trans htid, hk⟩
    · exact ⟨q, record, tid, other, by rw [hreqs, Assoc.lookup_put_ne hqp, hq], htid, hk⟩

section Answered

variable {transfer : CanardRxTransfer} {err : CanardTxPush} {state : RequestState} {res : QVariant}

/-- The promise of an entry is resolved, and the entry is taken out of the table. -/
def CyphalWorker.answered (w : CyphalWorker Dyn) (transfer : CanardRxTransfer)
    (state : RequestState) (res : QVariant) : CyphalWorker Dyn :=
  (w.emit (.resolve state.promise res)).remove transfer.port_id (w.port transfer.port_id)
    transfer.metadata.transfer_id

/-- A promise is resolved once when its entry is taken out. -/
theorem answered_output : (w.answered transfer state res).output =
    w.output ++ [.resolve state.promise res] :=
  (remove_spec _ _ _ _).2.2

/-- If a response is taken to the request that waits for it, then that is the request of the entry
under the transfer-ID of the response. -/
theorem ResolvesExactly.waits (hkind : transfer.transfer_kind = .Response)
    (h : ResolvesExactly types w (.on_frame transfer err))
    (hframe : w.on_frame types transfer err = some (w.answered transfer state res)) :
    (∀ k, WaitsFor w transfer k → k = state.promise) ∧ WaitsFor w transfer state.promise := by
  obtain ⟨hwaits, hnone⟩ := h hkind
  have hpromise (k : ℕ) (hk : WaitsFor w transfer k) : k = state.promise := by
    obtain ⟨w', res', hw', hresolve, -, -⟩ := hwaits k hk
    obtain rfl := Option.some.inj (hframe.symm.trans hw')
    rw [answered_output] at hresolve
    simp only [List.append_cancel_left_eq, List.cons.injEq, Output.resolve.injEq,
      and_true] at hresolve
    exact hresolve.1.symm
  refine ⟨hpromise, ?_⟩
  by_contra hno
  have hsame := hnone (fun k hk => hno (hpromise k hk ▸ hk))
  have hout := congrArg CyphalWorker.output (Option.some.inj (hsame.symm.trans hframe))
  rw [answered_output] at hout
  simp at hout

/-- The entry under the transfer-ID of the response is the only one that waits for it. -/
theorem Consistent.unique_of_resolves (hw : Consistent w)
    (hkind : transfer.transfer_kind = .Response)
    (hp : w.reqs.lookup transfer.port_id = some (w.port transfer.port_id))
    (hstate : (w.port transfer.port_id).in_flight.lookup transfer.metadata.transfer_id =
      some state)
    (hframe : w.on_frame types transfer err = some (w.answered transfer state res))
    (h : ResolvesExactly types w (.on_frame transfer err)) :
    SentTo w state.promise transfer.remote_node_id transfer.port_id transfer.transfer_id ∧
      ∀ tid other, (w.port transfer.port_id).in_flight.lookup tid = some other →
        SentTo w other.promise transfer.remote_node_id transfer.port_id transfer.transfer_id →
        tid = transfer.metadata.transfer_id := by
  obtain ⟨hpromise, hsent⟩ := h.waits hkind hframe
  refine ⟨hsent.2, ?_⟩
  intro tid other htid hother
  have hsame := hpromise other.promise
    ((hw.waitsFor_iff transfer _).mpr ⟨tid, other, htid, rfl, hother⟩)
  obtain ⟨metadata, hpush, -⟩ := hsent.2
  obtain ⟨-, htid'⟩ := hw.place_unique hpush hp htid hsame
  obtain ⟨-, hcurr⟩ := hw.place_unique hpush hp hstate rfl
  exact htid'.trans hcurr.symm

/-- If it is, then the response is taken to its request. -/
theorem Consistent.resolves_of_unique (hw : Consistent w)
    (hp : w.reqs.lookup transfer.port_id = some (w.port transfer.port_id))
    (hstate : (w.port transfer.port_id).in_flight.lookup transfer.metadata.transfer_id =
      some state)
    (hframe : w.on_frame types transfer err = some (w.answered transfer state res))
    (hsent : SentTo w state.promise transfer.remote_node_id transfer.port_id transfer.transfer_id)
    (hunique : ∀ tid other, (w.port transfer.port_id).in_flight.lookup tid = some other →
      SentTo w other.promise transfer.remote_node_id transfer.port_id transfer.transfer_id →
      tid = transfer.metadata.transfer_id) :
    ResolvesExactly types w (.on_frame transfer err) := by
  intro _
  constructor
  · intro k hk
    obtain ⟨tid, other, htid, rfl, hother⟩ := (hw.waitsFor_iff transfer k).mp hk
    obtain rfl := hunique tid other htid hother
    obtain rfl := Option.some.inj (hstate.symm.trans htid)
    obtain ⟨metadata, hpush, -⟩ := hsent
    have hpush' : .push metadata (some state.promise) ∈
        (w.emit (.resolve state.promise res)).output :=
      List.mem_append_left _ hpush
    have hemit : Consistent (w.emit (.resolve state.promise res)) := hw.emit (by simp)
    obtain ⟨hgone, hothers⟩ := hemit.remove_inFlight hp hstate hpush'
    exact ⟨_, res, hframe, answered_output, hgone, hothers⟩
  · intro hno
    exact absurd ((hw.waitsFor_iff transfer _).mpr ⟨_, state, hstate, rfl, hsent⟩)
      (hno state.promise)

end Answered

/-- In a state with consistent tables, a response is taken to the request that waits for it
exactly under the condition. -/
theorem Consistent.resolvesExactly_iff (hw : Consistent w) (a : Action) :
    ResolvesExactly types w a ↔ Answers types w a := by
  cases a with
  | Request params msg err => exact Iff.rfl
  | checkReqTimeouts => exact Iff.rfl
  | on_frame transfer err =>
    by_cases hkind : transfer.transfer_kind = .Response
    swap
    · exact iff_of_true (fun h => absurd h hkind) (fun h => absurd h hkind)
    by_cases hidle : (w.port transfer.port_id).in_flight = []
    · refine iff_of_true (fun _ => ⟨?_, fun _ => hw.on_frame_idle hkind hidle err⟩)
        (fun _ => Or.inl hidle)
      intro k hk
      obtain ⟨tid, state, htid, -, -⟩ := (hw.waitsFor_iff transfer k).mp hk
      simp [hidle] at htid
    have hframe := @Consistent.on_frame_busy _ types _ hw _ hkind hidle err
    have hp := lookup_of_in_flight hidle
    obtain ⟨dyn, hdyn⟩ := Option.isSome_iff_exists.mp (hw.typed hp)
    by_cases hinfo : transfer.port_id = uavcan_node_GetInfo_1_0_FIXED_PORT_ID_
    · rw [if_pos hinfo] at hframe
      refine iff_of_false (not_resolvesExactly hkind (Or.inl hframe)) ?_
      intro h
      rcases h hkind with hnil | ⟨hport, -⟩
      · exact hidle hnil
      · exact hport hinfo
    rw [if_neg hinfo, CyphalWorker.onResponse] at hframe
    simp only [hp, hdyn, Option.bind_eq_bind, Option.bind_some] at hframe
    cases hstate : (w.port transfer.port_id).in_flight.lookup transfer.metadata.transfer_id with
    | none =>
      rw [hstate, Option.bind_none] at hframe
      refine iff_of_false (not_resolvesExactly hkind (Or.inl hframe)) ?_
      intro h
      rcases h hkind with hnil | ⟨-, -, ⟨state, hsome, -⟩, -⟩
      · exact hidle hnil
      · simp [hstate] at hsome
    | some state =>
      rw [hstate, Option.bind_some] at hframe
      cases hres : types.deserialize dyn transfer.payload with
      | error text =>
        rw [hres] at hframe
        refine iff_of_false (not_resolvesExactly hkind (Or.inr ⟨_, hframe⟩)) ?_
        intro h
        rcases h hkind with hnil | ⟨-, ⟨dyn', res, hdyn', hok⟩, -, -⟩
        · exact hidle hnil
        · obtain rfl := Option.some.inj (hdyn.symm.trans hdyn')
          simp [hres] at hok
      | ok res =>
        simp only [hres] at hframe
        constructor
        · intro h _
          obtain ⟨hsent, hunique⟩ := hw.unique_of_resolves hkind hp hstate hframe h
          exact Or.inr ⟨hinfo, ⟨dyn, res, hdyn, hres⟩, ⟨state, hstate, hsent⟩, hunique⟩
        · intro h
          rcases h hkind with hnil | ⟨-, -, ⟨state', hstate', hsent⟩, hunique⟩
          · exact absurd hnil hidle
          obtain rfl := Option.some.inj (hstate.symm.trans hstate')
          exact hw.resolves_of_unique hp hstate hframe hsent hunique

/-- In every run of a worker, every response is taken to the request that waits for it exactly when
every step meets the condition. -/
theorem along_resolvesExactly_iff [DecidableEq Dyn] {config : CyphalConfig}
    (h : construct types config = .ok w) (actions : List Action) :
    Along (step types) (ResolvesExactly types) w actions ↔
      Along (step types) (Answers types) w actions :=
  along_iff (fun hw hstep => hw.step hstep) (fun a hw => hw.resolvesExactly_iff a)
    (Consistent.construct h) actions

/-- A described service without fields. -/
def emptyService : CyphalGlobal Unit where
  lookup_canard_type _ := some ()
  lookup_service_types _ := some ((), ())
  name_and_ver _ := "empty.1.0"
  extent _ := 0
  serialize _ _ := .ok []
  deserialize _ _ := .ok (.map [])

/-- A configuration without subjects and services. -/
def plainConfig : CyphalConfig := ⟨42, [], [], .invalid, []⟩

/-- A new worker that only answers `uavcan.node.GetInfo`. -/
def plainWorker : CyphalWorker Unit :=
  ⟨[((.Request, 430), (.info_sub (some ()), 0))], [], 0, .invalid, []⟩

/-- A request whose response comes in time. -/
theorem resolves_in_time : Along (step emptyService) (ResolvesExactly emptyService) plainWorker
    [.Request ⟨"empty", 1, 7, 5000⟩ .invalid .queued,
      .on_frame ⟨.Response, 7, 1, 0, []⟩ .queued] := by
  have hnew : construct emptyService plainConfig = .ok plainWorker := by rfl
  refine (along_resolvesExactly_iff hnew _).mpr ⟨trivial, ?_⟩
  intro w hw
  obtain rfl := Option.some.inj hw
  refine ⟨fun _ => Or.inr ⟨by decide, ⟨(), _, by rfl, by rfl⟩, ⟨⟨0, 5000⟩, by rfl, ?_⟩, ?_⟩, ?_⟩
  · exact ⟨⟨.Request, 7, 1, 0⟩, List.mem_singleton_self _, rfl, rfl, rfl⟩
  · intro tid state htid _
    have hentry := List.mem_singleton.mp (Assoc.mem_of_lookup htid)
    exact (Prod.mk.inj hentry).1
  · exact fun _ _ => trivial

/-- The first of two requests is dropped by the timer while the second one is in flight. When its
response comes after all, the handler reads behind the table. -/
theorem not_resolves_late :
    ¬ Along (step emptyService) (ResolvesExactly emptyService) plainWorker
      [.Request ⟨"empty", 1, 7, 100⟩ .invalid .queued,
        .Request ⟨"empty", 1, 7, 5000⟩ .invalid .queued, .checkReqTimeouts,
        .on_frame ⟨.Response, 7, 1, 0, []⟩ .queued] := by
  intro h
  have hlate := (((h.2 _ rfl).2 _ rfl).2 _ rfl).1
  exact not_resolvesExactly rfl (Or.inl rfl) hlate

end Radapter.Cyphal
