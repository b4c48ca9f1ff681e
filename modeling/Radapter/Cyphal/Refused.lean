import Radapter.Cyphal.Requests

/-!
# Requests that raise

A call of `Request` takes its transfer-ID before its checks, and puts the request into the table and
subscribes to the responses before the message is serialized and queued. Only the check of the
service type comes first, so that every other call that raises leaves something behind.
-/

namespace Radapter.Cyphal

open Library

variable {Dyn : Type}

/-! ## How a call ends -/

section Calls

variable (types : CyphalGlobal Dyn) (w : CyphalWorker Dyn) (params : RequestParams)
variable (msg : QVariant) (err : CanardTxPush)

/-- The service type is known, the port has no other response type and its transfer-ID is free, the
message serializes, and the queue takes it. -/
def Accepted : Prop :=
  ∃ req resp, types.lookup_service_types params.type = some (req, resp) ∧
    ((w.port params.port).resp_dyn = none ∨ (w.port params.port).resp_dyn = some resp) ∧
    (w.port params.port).in_flight.lookup (w.port params.port).tid = none ∧
    (∃ payload, types.serialize req msg = .ok payload) ∧ err = .queued

variable [DecidableEq Dyn]

/-- The call raises. -/
def Raises : Prop :=
  ∃ text, (w.Request types params msg err).output = w.output ++ [.Raise text]

/-- The call leaves the ports with their counters and requests in flight and the subscriptions to
responses as they are. -/
def LeavesRequests : Prop :=
  (∀ p, (w.Request types params msg err).reqs.lookup p = w.reqs.lookup p) ∧
    ∀ p, (w.Request types params msg err).canard.lookup (.Response, p) =
      w.canard.lookup (.Response, p)

end Calls

variable {types : CyphalGlobal Dyn} {w : CyphalWorker Dyn} {params : RequestParams}
variable {msg : QVariant} {err : CanardTxPush}

/-- A message is sent if it serializes and the queue takes it. -/
theorem pushMsg_ok_iff {dyn : Dyn} :
    pushMsg types dyn msg err = .ok () ↔
      (∃ payload, types.serialize dyn msg = .ok payload) ∧ err = .queued := by
  unfold pushMsg
  cases types.serialize dyn msg with
  | error text =>
    refine iff_of_false (fun h => by cases h) ?_
    rintro ⟨⟨payload, hpayload⟩, -⟩
    cases hpayload
  | ok payload =>
    cases err with
    | queued => exact iff_of_true rfl ⟨⟨payload, rfl⟩, rfl⟩
    | CANARD_ERROR_INVALID_ARGUMENT => exact iff_of_false (fun h => by cases h) (by simp)
    | CANARD_ERROR_OUT_OF_MEMORY => exact iff_of_false (fun h => by cases h) (by simp)

/-- The record that is put into the table has the next transfer-ID. -/
theorem lookup_insert (w : CyphalWorker Dyn) (req resp : Dyn) (params : RequestParams) :
    ∃ port, (w.insert types req resp params).reqs.lookup params.port = some port ∧
      port.tid = (w.port params.port).tid + 1 := by
  unfold CyphalWorker.insert
  simp only
  split_ifs
  · exact ⟨_, Assoc.lookup_put_self .., rfl⟩
  · exact ⟨_, Assoc.lookup_put_self .., rfl⟩

/-- To note a request sends nothing. -/
theorem output_insert (w : CyphalWorker Dyn) (req resp : Dyn) (params : RequestParams) :
    (w.insert types req resp params).output = w.output := by
  unfold CyphalWorker.insert
  simp only
  split_ifs
  · rfl
  · rfl

variable [DecidableEq Dyn]

/-- A call for a known service: the transfer-ID is lost in a refused call, else the request is in
the table, and the message may still fail to be sent. -/
theorem Request_known (w : CyphalWorker Dyn) (msg : QVariant) (err : CanardTxPush) {req resp : Dyn}
    (h : types.lookup_service_types params.type = some (req, resp)) :
    (∃ text, ¬ Accepted types w params msg err ∧ w.Request types params msg err =
      CyphalWorker.emit { w with
        reqs := Assoc.put params.port ((w.port params.port).next resp) w.reqs } (.Raise text)) ∨
    ((w.port params.port).next resp).resp_dyn = some resp ∧
      ((∃ text, ¬ Accepted types w params msg err ∧
        w.Request types params msg err = (w.insert types req resp params).emit (.Raise text)) ∨
      Accepted types w params msg err ∧
        w.Request types params msg err = (w.insert types req resp params).emit
          (.push (w.requestMeta params) (some w.promises))) := by
  have haccepted : Accepted types w params msg err ↔
      ((w.port params.port).resp_dyn = none ∨ (w.port params.port).resp_dyn = some resp) ∧
        (w.port params.port).in_flight.lookup (w.port params.port).tid = none ∧
        pushMsg types req msg err = .ok () := by
    rw [Accepted, h, pushMsg_ok_iff]
    constructor
    · rintro ⟨req', resp', hfound, hrest⟩
      obtain ⟨rfl, rfl⟩ := Prod.mk.inj (Option.some.inj hfound)
      exact hrest
    · exact fun hrest => ⟨req, resp, rfl, hrest⟩
  have htyped : ((w.port params.port).next resp).resp_dyn = some resp ↔
      ((w.port params.port).resp_dyn = none ∨ (w.port params.port).resp_dyn = some resp) := by
    rw [RequestsPort.next]
    cases (w.port params.port).resp_dyn with
    | none => simp
    | some was => simp
  unfold CyphalWorker.Request
  simp only [h]
  split_ifs with hconflict hbusy
  · exact Or.inl ⟨_, fun ha => hconflict (htyped.mpr (haccepted.mp ha).1), rfl⟩
  · left
    refine ⟨_, fun ha => ?_, rfl⟩
    rw [(haccepted.mp ha).2.1] at hbusy
    cases hbusy
  · right
    refine ⟨not_not.mp hconflict, ?_⟩
    cases hpush : pushMsg types req msg err with
    | error text =>
      left
      refine ⟨text, fun ha => ?_, rfl⟩
      rw [(haccepted.mp ha).2.2] at hpush
      cases hpush
    | ok sent =>
      right
      refine ⟨haccepted.mpr ⟨htyped.mp (not_not.mp hconflict), ?_, hpush⟩, rfl⟩
      exact Option.not_isSome_iff_eq_none.mp hbusy

/-- A call for a known service takes a transfer-ID, however it ends. -/
theorem takes_tid (w : CyphalWorker Dyn) (msg : QVariant) (err : CanardTxPush) {req resp : Dyn}
    (h : types.lookup_service_types params.type = some (req, resp)) :
    ∃ port, (w.Request types params msg err).reqs.lookup params.port = some port ∧
      port.tid = (w.port params.port).tid + 1 := by
  rcases Request_known w msg err h with
    ⟨text, -, heq⟩ | ⟨-, ⟨text, -, heq⟩ | ⟨-, heq⟩⟩
  · rw [heq]
    exact ⟨_, Assoc.lookup_put_self .., rfl⟩
  · rw [heq]
    exact lookup_insert w req resp params
  · rw [heq]
    exact lookup_insert w req resp params

/-- A call for a service that is known always changes the requests. -/
theorem not_leavesRequests {req resp : Dyn}
    (h : types.lookup_service_types params.type = some (req, resp)) :
    ¬ LeavesRequests types w params msg err := by
  rintro ⟨hreqs, -⟩
  obtain ⟨port, hport, htid⟩ := takes_tid w msg err h
  rw [hreqs] at hport
  rw [port_of_lookup hport] at htid
  exact absurd htid.symm (by simp)

/-- A call raises exactly if it is not accepted. -/
theorem raises_iff : Raises types w params msg err ↔ ¬ Accepted types w params msg err := by
  cases h : types.lookup_service_types params.type with
  | none =>
    apply iff_of_true
    · refine ⟨s!"Could not find types for service: {params.type}", ?_⟩
      rw [CyphalWorker.Request, h]
      rfl
    · rintro ⟨req, resp, hfound, -⟩
      rw [h] at hfound
      cases hfound
  | some found =>
    obtain ⟨req, resp⟩ := found
    unfold Raises
    rcases Request_known w msg err h with
      ⟨text, hnot, heq⟩ | ⟨-, ⟨text, hnot, heq⟩ | ⟨haccepted, heq⟩⟩
    · rw [heq]
      exact iff_of_true ⟨text, rfl⟩ hnot
    · rw [heq]
      exact iff_of_true ⟨text, by rw [CyphalWorker.emit, output_insert]⟩ hnot
    · rw [heq]
      refine iff_of_false ?_ (not_not.mpr haccepted)
      rintro ⟨text, htext⟩
      rw [CyphalWorker.emit, output_insert] at htext
      cases List.append_cancel_left htext

/-- A call that raises leaves the state of the requests as it is exactly if it raises because the
service type is unknown. -/
theorem leavesRequests_iff :
    (Raises types w params msg err → LeavesRequests types w params msg err) ↔
      types.lookup_service_types params.type = none ∨ Accepted types w params msg err := by
  cases h : types.lookup_service_types params.type with
  | none =>
    apply iff_of_true
    · intro _
      unfold LeavesRequests
      rw [CyphalWorker.Request, h]
      exact ⟨fun p => rfl, fun p => rfl⟩
    · exact Or.inl rfl
  | some found =>
    rw [raises_iff]
    constructor
    · intro himp
      right
      by_contra hnot
      exact not_leavesRequests h (himp hnot)
    · rintro (hnone | haccepted) hnot
      · cases hnone
      · exact absurd haccepted hnot

/-- The queue has no room for the only request: the call raises, but the request is in flight and
the worker listens to its response. -/
theorem refused_stays :
    Raises emptyService plainWorker ⟨"empty", 1, 7, 5000⟩ .invalid .CANARD_ERROR_OUT_OF_MEMORY ∧
    ¬ LeavesRequests emptyService plainWorker ⟨"empty", 1, 7, 5000⟩ .invalid
      .CANARD_ERROR_OUT_OF_MEMORY ∧
    (plainWorker.Request emptyService ⟨"empty", 1, 7, 5000⟩ .invalid
        .CANARD_ERROR_OUT_OF_MEMORY).reqs = [(7, ⟨7, some (), [(0, ⟨0, 5000⟩)], 1⟩)] ∧
    (plainWorker.Request emptyService ⟨"empty", 1, 7, 5000⟩ .invalid
        .CANARD_ERROR_OUT_OF_MEMORY).canard.lookup (.Response, 7) = some (.RequestsPort 7, 0) := by
  refine ⟨⟨_, rfl⟩, ?_, rfl, rfl⟩
  rintro ⟨-, hcanard⟩
  cases hcanard 7

end Radapter.Cyphal
