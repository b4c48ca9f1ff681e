import Radapter.Cyphal.Worker

/-!
# The registered objects

Every object is registered for one kind of transfers: an `RxSub` for messages, a `RequestsPort` for
responses, a `Service` or the handler of `uavcan.node.GetInfo` for requests. The constructor
registers the objects of the configuration, and the steps of the worker change nothing but the
subscriptions to responses.
-/

namespace Radapter.Cyphal

open Library

variable {Dyn : Type} {types : CyphalGlobal Dyn}

/-- The kind of object that belongs to a kind of transfers and a port. -/
def Registered : CanardTransferKind × CanardPortID → CanardRxSubscription Dyn → Prop
  | (.Message, _), .RxSub _ _ => True
  | (.Response, p), .RequestsPort q => p = q
  | (.Request, p), .info_sub _ => p = uavcan_node_GetInfo_1_0_FIXED_PORT_ID_
  | (.Request, p), .Service _ _ _ => p ≠ uavcan_node_GetInfo_1_0_FIXED_PORT_ID_
  | _, _ => False

/-- What the loop over `subscribe` adds. -/
theorem subscribeTopics_lookup {topics : List (String × CyphalTopic)}
    {canard canard' : CanardInstance Dyn} (h : subscribeTopics types topics canard = .ok canard')
    (key : CanardTransferKind × CanardPortID) :
    (canard'.lookup key = canard.lookup key ∨ ∃ name dyn extent,
      canard'.lookup key = some (.RxSub name dyn, extent)) ∧
    ((canard'.lookup key).isSome = true ↔ (canard.lookup key).isSome = true ∨
      ∃ e ∈ topics, key = (.Message, e.2.port)) ∧
    (key.1 ≠ .Message → canard'.lookup key = canard.lookup key) := by
  induction topics generalizing canard with
  | nil =>
    rw [subscribeTopics, Except.ok.injEq] at h
    subst h
    simp
  | cons e rest ih =>
    obtain ⟨name, topic⟩ := e
    unfold subscribeTopics at h
    split at h
    · cases h
    · next dyn _ =>
      split at h
      · next canard₁ hsub =>
        obtain ⟨-, hcanard⟩ := Prod.mk.inj hsub
        obtain ⟨hold, hsome, hother⟩ := ih h
        have hput : canard₁.lookup key = if key = (.Message, topic.port) then
            some (.RxSub name dyn, types.extent dyn) else canard.lookup key := by
          rw [← hcanard]
          split
          · next hkey => rw [hkey, Assoc.lookup_put_self]
          · next hkey => rw [Assoc.lookup_put_ne hkey]
        by_cases hkey : key = (.Message, topic.port)
        · rw [if_pos hkey] at hput
          refine ⟨?_, ?_, fun hkind => absurd (by rw [hkey]) hkind⟩
          · rcases hold with hold | hold
            · exact Or.inr ⟨_, _, _, hold.trans hput⟩
            · exact Or.inr hold
          · exact iff_of_true (hsome.mpr (Or.inl (by rw [hput]; rfl)))
              (Or.inr ⟨_, List.mem_cons_self .., hkey⟩)
        · rw [if_neg hkey] at hput
          rw [hput] at hold hsome hother
          refine ⟨hold, ?_, hother⟩
          simp [hsome, hkey]
      · cases h

/-- What the loop over `services` adds. -/
theorem subscribeServices_lookup {services : List CyphalTopic}
    {canard canard' : CanardInstance Dyn}
    (h : subscribeServices types services canard = .ok canard')
    (key : CanardTransferKind × CanardPortID) :
    (canard'.lookup key = canard.lookup key ∨ ∃ type_name req resp extent,
      canard'.lookup key = some (.Service type_name req resp, extent)) ∧
    (key.1 ≠ .Request → canard'.lookup key = canard.lookup key) := by
  induction services generalizing canard with
  | nil =>
    rw [subscribeServices, Except.ok.injEq] at h
    subst h
    simp
  | cons service rest ih =>
    unfold subscribeServices at h
    split at h
    · cases h
    · next req resp _ =>
      split at h
      · next canard₁ hsub =>
        obtain ⟨-, hcanard⟩ := Prod.mk.inj hsub
        obtain ⟨hold, hother⟩ := ih h
        have hput : canard₁.lookup key = if key = (.Request, service.port) then
            some (.Service service.type req resp, types.extent req) else canard.lookup key := by
          rw [← hcanard]
          split
          · next hkey => rw [hkey, Assoc.lookup_put_self]
          · next hkey => rw [Assoc.lookup_put_ne hkey]
        by_cases hkey : key = (.Request, service.port)
        · rw [if_pos hkey] at hput
          refine ⟨?_, fun hkind => absurd (by rw [hkey]) hkind⟩
          rcases hold with hold | hold
          · exact Or.inr ⟨_, _, _, _, hold.trans hput⟩
          · exact Or.inr hold
        · rw [if_neg hkey] at hput
          rw [hput] at hold hother
          exact ⟨hold, hother⟩
      · cases h

/-- The subscriptions of a new worker: the subjects of the configuration, the services, and the
handler of `uavcan.node.GetInfo`. -/
theorem construct_canard {config : CyphalConfig} {w : CyphalWorker Dyn}
    (h : construct types config = .ok w) :
    w.reqs = [] ∧ w.output = [] ∧
      (∀ p, w.canard.lookup (.Response, p) = none) ∧
      (∀ key sub extent, w.canard.lookup key = some (sub, extent) → Registered key sub) ∧
      ∀ p, (w.canard.lookup (.Message, p)).isSome = true ↔
        ∃ e ∈ config.subscribe, e.2.port = p := by
  unfold construct at h
  simp only [bind, Except.bind] at h
  split at h
  · cases h
  · split at h
    · cases h
    · split at h
      · cases h
      · next canard htopics =>
        split at h
        · cases h
        · next canard' hservices =>
          cases h
          have hne (key : CanardTransferKind × CanardPortID)
              (hkey : key ≠ (.Request, uavcan_node_GetInfo_1_0_FIXED_PORT_ID_))
              (sub : CanardRxSubscription Dyn × ℕ) : (Assoc.put (CanardTransferKind.Request,
                uavcan_node_GetInfo_1_0_FIXED_PORT_ID_) sub canard').lookup key =
                  canard'.lookup key := Assoc.lookup_put_ne hkey ..
          refine ⟨rfl, rfl, ?_, ?_, ?_⟩
          · intro p
            obtain ⟨-, hservice⟩ := subscribeServices_lookup hservices (.Response, p)
            obtain ⟨-, -, htopic⟩ := subscribeTopics_lookup htopics (.Response, p)
            simp only [canardRxSubscribe, hne (.Response, p) (by simp)]
            rw [hservice (by simp), htopic (by simp)]
            rfl
          · intro key sub extent hsub
            obtain ⟨hservice, hnoService⟩ := subscribeServices_lookup hservices key
            obtain ⟨htopic, -, hnoTopic⟩ := subscribeTopics_lookup htopics key
            by_cases hinfo : key = (.Request, uavcan_node_GetInfo_1_0_FIXED_PORT_ID_)
            · subst hinfo
              simp only [canardRxSubscribe, Assoc.lookup_put_self, Option.some.injEq,
                Prod.mk.injEq] at hsub
              obtain ⟨rfl, -⟩ := hsub
              rfl
            · simp only [canardRxSubscribe, hne key hinfo] at hsub
              obtain ⟨kind, p⟩ := key
              cases kind with
              | Message =>
                rw [hnoService (by simp)] at hsub
                rcases htopic with hold | ⟨_, _, _, hnew⟩
                · rw [hold] at hsub
                  cases hsub
                · rw [hnew] at hsub
                  cases hsub
                  trivial
              | Response =>
                rw [hnoService (by simp), hnoTopic (by simp)] at hsub
                cases hsub
              | Request =>
                rcases hservice with hold | ⟨_, _, _, _, hnew⟩
                · rw [hold, hnoTopic (by simp)] at hsub
                  cases hsub
                · rw [hnew] at hsub
                  cases hsub
                  exact fun hp => hinfo (by rw [hp])
          · intro p
            obtain ⟨-, hservice⟩ := subscribeServices_lookup hservices (.Message, p)
            obtain ⟨-, hsome, -⟩ := subscribeTopics_lookup htopics (.Message, p)
            simp only [canardRxSubscribe, hne (.Message, p) (by simp)]
            rw [hservice (by simp), hsome]
            simp [eq_comm]

end Radapter.Cyphal
