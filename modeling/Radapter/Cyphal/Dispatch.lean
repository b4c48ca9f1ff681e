import Radapter.Cyphal.TableSteps
import Radapter.Cyphal.Requests
import Radapter.Library.Runs

/-!
# The branches of the frame handler

`on_frame` tests the port of a transfer before its kind: everything on the port of
`uavcan.node.GetInfo` is taken for a request for the node information. The handler of these
requests is the object registered for requests on that port, but a subject and the responses to
requests of the worker itself may have the same port number.

The file shows that nothing else goes wrong: in every run, every transfer is treated as the object
registered for it exactly when neither uses that port number.
-/

namespace Radapter.Cyphal

open Library

variable {Dyn : Type}

/-- The object is of the class that the branch casts it to, and the transfer is of the kind that
the branch is for. -/
def Branch.Fits : Branch → CanardTransferKind → CanardRxSubscription Dyn → Prop
  | .nodeInfo, .Request, .info_sub _ => True
  | .response, .Response, .RequestsPort _ => True
  | .request, .Request, .Service _ _ _ => True
  | .message, .Message, .RxSub _ _ => True
  | _, _, _ => False

/-- A transfer is treated as the object that is registered for it. -/
def TreatedAsRegistered (w : CyphalWorker Dyn) (transfer : CanardRxTransfer) : Prop :=
  ∀ sub extent,
    w.canard.lookup (transfer.transfer_kind, transfer.port_id) = some (sub, extent) →
      transfer.branch.Fits transfer.transfer_kind sub

/-- The call of `Request` uses the port of `uavcan.node.GetInfo`, with a service that is known. -/
def AsksNodeInfo (types : CyphalGlobal Dyn) : Action → Prop
  | .Request params _ _ => params.port = uavcan_node_GetInfo_1_0_FIXED_PORT_ID_ ∧
      (types.lookup_service_types params.type).isSome = true
  | _ => False

variable {types : CyphalGlobal Dyn} {w w' : CyphalWorker Dyn}

/-! ## What is registered -/

/-- The objects are registered where they belong. -/
def AllRegistered (w : CyphalWorker Dyn) : Prop :=
  ∀ key sub extent, w.canard.lookup key = some (sub, extent) → Registered key sub

/-- The steps change only the subscriptions to responses, and register what belongs there. -/
theorem canard_step [DecidableEq Dyn] (hw : Consistent w) {a : Action}
    (h : step types w a = some w') (key : CanardTransferKind × CanardPortID) :
    (key.1 ≠ .Response → w'.canard.lookup key = w.canard.lookup key) ∧
      (key.1 = .Response → ∀ sub extent, w'.canard.lookup key = some (sub, extent) →
        Registered key sub) := by
  have hw' := hw.step h
  constructor
  · intro hkey
    have hinsert (req resp : Dyn) (params : RequestParams) :
        (w.insert types req resp params).canard.lookup key = w.canard.lookup key :=
      (@insert_spec _ types _ hw req resp params).2.2.2.2 key (by
        rintro rfl
        exact hkey rfl)
    cases a with
    | Request params msg err =>
      obtain rfl := Option.some.inj h
      rcases @Request_cases _ types _ w params msg err with ⟨text, h⟩ | ⟨text, resp, -, h⟩ |
        ⟨req, resp, -, ⟨text, h⟩ | h⟩
      · rw [h]
        rfl
      · rw [h]
        rfl
      · rw [h]
        exact hinsert req resp params
      · rw [h]
        exact hinsert req resp params
    | checkReqTimeouts =>
      obtain rfl := Option.some.inj h
      rw [lookup_checkReqTimeouts, if_neg (fun h => hkey h.1)]
    | on_frame transfer err =>
      rcases on_frame_cases h with rfl | ⟨o, -, rfl⟩ | ⟨p, port, state, res, -, -, rfl⟩
      · rfl
      · rfl
      · unfold CyphalWorker.remove
        simp only [canardRxUnsubscribe]
        split
        · apply Assoc.lookup_erase_ne
          rintro rfl
          exact hkey rfl
        · rfl
  · rintro hkey sub extent hsub
    obtain ⟨kind, p⟩ := key
    obtain rfl : kind = .Response := hkey
    obtain ⟨port, hp, hne⟩ := hw'.listens_only hsub
    obtain ⟨extent', hlisten⟩ := hw'.listens hp hne
    rw [hsub] at hlisten
    obtain rfl : sub = .RequestsPort p := congrArg Prod.fst (Option.some.inj hlisten)
    rfl

/-- With the objects registered where they belong, every transfer is treated as its object exactly
when no subject and no request of the worker has the port of `uavcan.node.GetInfo`. -/
theorem treated_iff (hw : AllRegistered w) : (∀ transfer, TreatedAsRegistered w transfer) ↔
    w.canard.lookup (.Message, uavcan_node_GetInfo_1_0_FIXED_PORT_ID_) = none ∧
      w.canard.lookup (.Response, uavcan_node_GetInfo_1_0_FIXED_PORT_ID_) = none := by
  constructor
  · intro h
    have hnone (kind : CanardTransferKind) (hkind : kind ≠ .Request) :
        w.canard.lookup (kind, uavcan_node_GetInfo_1_0_FIXED_PORT_ID_) = none := by
      cases hsub : w.canard.lookup (kind, uavcan_node_GetInfo_1_0_FIXED_PORT_ID_) with
      | none => rfl
      | some found =>
        have hfits :=
          h ⟨kind, uavcan_node_GetInfo_1_0_FIXED_PORT_ID_, 0, 0, []⟩ found.1 found.2 hsub
        rw [CanardRxTransfer.branch, if_pos rfl] at hfits
        cases kind with
        | Request => exact absurd rfl hkind
        | Message => exact False.elim hfits
        | Response => exact False.elim hfits
    exact ⟨hnone .Message (by simp), hnone .Response (by simp)⟩
  · rintro ⟨hmessage, hresponse⟩ transfer sub extent hsub
    have hreg := hw _ _ _ hsub
    rw [CanardRxTransfer.branch]
    by_cases hinfo : transfer.port_id = uavcan_node_GetInfo_1_0_FIXED_PORT_ID_
    · rw [if_pos hinfo]
      rw [hinfo] at hsub hreg
      cases hkind : transfer.transfer_kind with
      | Message => simp [hkind, hmessage] at hsub
      | Response => simp [hkind, hresponse] at hsub
      | Request =>
        rw [hkind] at hreg
        cases sub with
        | info_sub ref => trivial
        | Service type_name req resp => exact absurd rfl hreg
        | RxSub name dyn => exact False.elim hreg
        | RequestsPort p => exact False.elim hreg
    · rw [if_neg hinfo]
      generalize transfer.transfer_kind = kind at hreg
      cases sub with
      | RxSub name dyn => cases kind <;> trivial
      | Service type_name req resp => cases kind <;> trivial
      | info_sub ref => cases kind <;> first | exact False.elim hreg | exact absurd hreg hinfo
      | RequestsPort p => cases kind <;> trivial

/-! ## Runs -/

/-- Without requests for the node information, the worker makes no record for their port. -/
theorem lookup_step_of_not_asks [DecidableEq Dyn] (hw : Consistent w) {a : Action}
    (ha : ¬ AsksNodeInfo types a) (h : step types w a = some w')
    (hnone : w.reqs.lookup uavcan_node_GetInfo_1_0_FIXED_PORT_ID_ = none) :
    w'.reqs.lookup uavcan_node_GetInfo_1_0_FIXED_PORT_ID_ = none := by
  cases a with
  | Request params msg err =>
    obtain rfl := Option.some.inj h
    by_cases hport : params.port = uavcan_node_GetInfo_1_0_FIXED_PORT_ID_
    · have hunknown : types.lookup_service_types params.type = none := by
        simpa [AsksNodeInfo, hport] using ha
      rw [CyphalWorker.Request, hunknown]
      exact hnone
    · have hput (record : RequestsPort Dyn) : (Assoc.put params.port record w.reqs).lookup
          uavcan_node_GetInfo_1_0_FIXED_PORT_ID_ = none := by
        rw [Assoc.lookup_put_ne (Ne.symm hport), hnone]
      have hinsert (req resp : Dyn) : (w.insert types req resp params).reqs.lookup
          uavcan_node_GetInfo_1_0_FIXED_PORT_ID_ = none := by
        rw [(@insert_spec _ types _ hw req resp params).1]
        exact hput _
      rcases @Request_cases _ types _ w params msg err with ⟨text, h⟩ | ⟨text, resp, -, h⟩ |
        ⟨req, resp, -, ⟨text, h⟩ | h⟩
      · rw [h]
        exact hnone
      · rw [h]
        exact hput _
      · rw [h]
        exact hinsert req resp
      · rw [h]
        exact hinsert req resp
  | checkReqTimeouts =>
    obtain rfl := Option.some.inj h
    rw [checkReqTimeouts_reqs, Assoc.lookup_filterMap _ hw.ports_distinct, hnone, Option.bind_none]
  | on_frame transfer err =>
    rcases on_frame_cases h with rfl | ⟨o, -, rfl⟩ | ⟨p, port, state, res, hp, -, rfl⟩
    · exact hnone
    · exact hnone
    · have hne : uavcan_node_GetInfo_1_0_FIXED_PORT_ID_ ≠ p := by
        rintro rfl
        simp [hnone] at hp
      rw [(remove_spec _ p port _).1, Assoc.lookup_put_ne hne]
      exact hnone

/-- The first request for the node information makes the worker listen to responses on their
port. -/
theorem listens_of_asks [DecidableEq Dyn] (hw : Consistent w) {a : Action}
    (ha : AsksNodeInfo types a) (h : step types w a = some w')
    (hnone : w.reqs.lookup uavcan_node_GetInfo_1_0_FIXED_PORT_ID_ = none) :
    w'.canard.lookup (.Response, uavcan_node_GetInfo_1_0_FIXED_PORT_ID_) ≠ none := by
  cases a with
  | checkReqTimeouts => exact False.elim ha
  | on_frame transfer err => exact False.elim ha
  | Request params msg err =>
    obtain ⟨hport, hknown⟩ := ha
    obtain rfl := Option.some.inj h
    have hinsert (req resp : Dyn) : (w.insert types req resp params).canard.lookup
        (.Response, uavcan_node_GetInfo_1_0_FIXED_PORT_ID_) ≠ none := by
      obtain ⟨-, -, -, ⟨extent, hlisten⟩, -⟩ := @insert_spec _ types _ hw req resp params
      rw [← hport, hlisten]
      simp
    rcases @Request_cases _ types _ w params msg err with ⟨text, h⟩ | ⟨text, resp, hp, h⟩ |
      ⟨req, resp, -, ⟨text, h⟩ | h⟩
    · -- A service that is known is not refused before the record is made.
      obtain ⟨found, hfound⟩ := Option.isSome_iff_exists.mp hknown
      obtain ⟨req, resp⟩ := found
      have hdefault : w.port params.port = ⟨0, none, [], 0⟩ := by
        rw [CyphalWorker.port, hport, hnone, Option.getD_none]
      have hdyn : ((w.port params.port).next resp).resp_dyn = some resp := by
        rw [hdefault]
        rfl
      have hfree : (w.port params.port).in_flight.lookup (w.port params.port).tid = none := by
        rw [hdefault]
        rfl
      simp only [CyphalWorker.Request, hfound, hdyn, hfree, ne_eq, not_true_eq_false, if_false,
        Option.isSome_none, Bool.false_eq_true]
      cases pushMsg types req msg err with
      | error text => exact hinsert req resp
      | ok sent => exact hinsert req resp
    · simp [hport, hnone] at hp
    · rw [h]
      exact hinsert req resp
    · rw [h]
      exact hinsert req resp

/-- In a run, the worker never listens to responses on the port exactly when it never asks for the
node information. -/
theorem never_listens_iff [DecidableEq Dyn] (hw : Consistent w)
    (hnone : w.reqs.lookup uavcan_node_GetInfo_1_0_FIXED_PORT_ID_ = none) {actions : List Action}
    (hrun : run (step types) w actions = some w') :
    (∀ done, done <+: actions → ∀ t, run (step types) w done = some t →
        t.canard.lookup (.Response, uavcan_node_GetInfo_1_0_FIXED_PORT_ID_) = none) ↔
      ∀ a ∈ actions, ¬ AsksNodeInfo types a := by
  have hquiet {w : CyphalWorker Dyn} (hw : Consistent w)
      (hnone : w.reqs.lookup uavcan_node_GetInfo_1_0_FIXED_PORT_ID_ = none) :
      w.canard.lookup (.Response, uavcan_node_GetInfo_1_0_FIXED_PORT_ID_) = none := by
    cases hsub : w.canard.lookup (.Response, uavcan_node_GetInfo_1_0_FIXED_PORT_ID_) with
    | none => rfl
    | some sub =>
      obtain ⟨port, hp, -⟩ := hw.listens_only hsub
      simp [hnone] at hp
  constructor
  · intro h
    induction actions generalizing w with
    | nil => simp
    | cons a rest ih =>
      obtain ⟨t, ht, hrest⟩ := Option.bind_eq_some_iff.mp hrun
      have ha : ¬ AsksNodeInfo types a := by
        intro ha
        apply listens_of_asks hw ha ht hnone
        apply h [a] (List.prefix_append [a] rest) t
        rw [run, ht]
        rfl
      have hlater := ih (hw.step ht) (lookup_step_of_not_asks hw ha ht hnone) hrest (by
        intro done hdone u hu
        apply h (a :: done) (List.cons_prefix_cons.mpr ⟨rfl, hdone⟩) u
        rw [run, ht]
        exact hu)
      intro b hb
      rcases List.mem_cons.mp hb with rfl | hb
      · exact ha
      · exact hlater b hb
  · intro h done hdone t ht
    have hstate : Consistent t ∧ t.reqs.lookup uavcan_node_GetInfo_1_0_FIXED_PORT_ID_ = none := by
      clear hrun
      induction done generalizing w actions with
      | nil =>
        obtain rfl := Option.some.inj ht
        exact ⟨hw, hnone⟩
      | cons a done ih =>
        cases actions with
        | nil => simp at hdone
        | cons b rest =>
          obtain ⟨rfl, hprefix⟩ := List.cons_prefix_cons.mp hdone
          obtain ⟨u, hu, ht⟩ := Option.bind_eq_some_iff.mp ht
          exact ih (hw.step hu) (lookup_step_of_not_asks hw (h a (List.mem_cons_self ..)) hu hnone)
            (fun c hc => h c (List.mem_cons_of_mem _ hc)) hprefix ht
    exact hquiet hstate.1 hstate.2

/-- In every run of a worker, every transfer that may arrive is treated as the object registered
for it exactly when no subject of the configuration has the port of `uavcan.node.GetInfo` and the
run has no request on that port. -/
theorem treated_in_run_iff [DecidableEq Dyn] {config : CyphalConfig}
    (hnew : construct types config = .ok w) {actions : List Action}
    (hrun : run (step types) w actions = some w') :
    (∀ done, done <+: actions → ∀ t, run (step types) w done = some t →
        ∀ transfer, TreatedAsRegistered t transfer) ↔
      (∀ e ∈ config.subscribe, e.2.port ≠ uavcan_node_GetInfo_1_0_FIXED_PORT_ID_) ∧
        ∀ a ∈ actions, ¬ AsksNodeInfo types a := by
  obtain ⟨hreqs, -, -, hregistered, htopics⟩ := construct_canard hnew
  have hw : Consistent w := Consistent.construct hnew
  -- The objects stay where they belong, and the subjects stay as they are.
  have hstep {t u : CyphalWorker Dyn} {a : Action}
      (ht : Consistent t ∧ AllRegistered t ∧ ∀ p,
        t.canard.lookup (.Message, p) = w.canard.lookup (.Message, p))
      (hu : step types t a = some u) : Consistent u ∧ AllRegistered u ∧ ∀ p,
        u.canard.lookup (.Message, p) = w.canard.lookup (.Message, p) := by
    obtain ⟨hcons, hall, hsubjects⟩ := ht
    refine ⟨hcons.step hu, ?_, ?_⟩
    · intro key sub extent hsub
      obtain ⟨hother, hresponse⟩ := canard_step hcons hu key
      by_cases hkey : key.1 = .Response
      · exact hresponse hkey sub extent hsub
      · exact hall key sub extent (hother hkey ▸ hsub)
    · intro p
      rw [(canard_step hcons hu (.Message, p)).1 (by simp), hsubjects]
  have hreached {done : List Action} {t : CyphalWorker Dyn}
      (ht : run (step types) w done = some t) :=
    run_invariant_of_step hstep ⟨hw, hregistered, fun _ => rfl⟩ ht
  have hsubject : w.canard.lookup (.Message, uavcan_node_GetInfo_1_0_FIXED_PORT_ID_) = none ↔
      ∀ e ∈ config.subscribe, e.2.port ≠ uavcan_node_GetInfo_1_0_FIXED_PORT_ID_ := by
    rw [← Option.not_isSome_iff_eq_none, htopics]
    push Not
    rfl
  rw [← hsubject, ← never_listens_iff hw (by rw [hreqs]; rfl) hrun]
  constructor
  · intro h
    constructor
    · exact ((treated_iff hregistered).mp (h [] (List.nil_prefix) w rfl)).1
    · intro done hdone t ht
      exact ((treated_iff (hreached ht).2.1).mp (h done hdone t ht)).2
  · rintro ⟨hmessage, hresponse⟩ done hdone t ht
    obtain ⟨-, hall, hsubjects⟩ := hreached ht
    exact (treated_iff hall).mpr ⟨(hsubjects _).trans hmessage, hresponse done hdone t ht⟩

/-- A request on another port does no harm. -/
theorem treated_other_port :
    (∃ t, run (step emptyService) plainWorker
      [.Request ⟨"empty", 1, 7, 5000⟩ .invalid .queued] = some t) ∧
    ∀ done, done <+: [Action.Request ⟨"empty", 1, 7, 5000⟩ .invalid .queued] →
    ∀ t, run (step emptyService) plainWorker done = some t →
      ∀ transfer, TreatedAsRegistered t transfer := by
  have hnew : construct emptyService plainConfig = .ok plainWorker := by rfl
  refine ⟨⟨_, rfl⟩, (treated_in_run_iff hnew rfl).mpr ⟨by simp [plainConfig], ?_⟩⟩
  intro a ha
  obtain rfl := List.mem_singleton.mp ha
  exact fun h => absurd h.1 (by decide)

/-- The response to a request for the node information of another node is treated as a request for
that of the worker. -/
theorem not_treated_node_info : ¬ ∀ t, run (step emptyService) plainWorker
    [.Request ⟨"uavcan.node.GetInfo", 1, 430, 5000⟩ .invalid .queued] = some t →
      TreatedAsRegistered t ⟨.Response, 430, 1, 0, []⟩ := by
  intro h
  exact h _ rfl _ _ rfl

end Radapter.Cyphal
