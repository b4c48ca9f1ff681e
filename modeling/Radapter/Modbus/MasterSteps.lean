import Radapter.Modbus.DeviceSteps
import Radapter.Modbus.Master

/-!
# The steps of the masters

Every step of the masters has one of the effects of `Masters.Effect`, one for each branch of
their handlers. All that is proved about runs goes through this inversion.
-/

namespace Radapter.Modbus

namespace Masters

variable {p : Plant}

/-- A record that is left when one is erased was there before. -/
theorem of_update_none {inFlight : RegisterId → Option InFlight} {r other : RegisterId}
    {record : InFlight} (h : Function.update inFlight r none other = some record) :
    inFlight other = some record := by
  by_cases hr : other = r
  · rw [hr, Function.update_self] at h
    cases h
  · rwa [Function.update_of_ne hr] at h

/-- The state after a call of `Execute` on a device that is sound. -/
def issue (p : Plant) (s : Masters) (op : Op) (req : Request Callback) : Masters :=
  { s with
    device := s.device.Execute p.device op req
    calling :=
      if s.device.Overflows p.device op then (p.device.onOver op).victim (s.device.queue op)
      else none }

/-- Everything a step can do, one case for each branch of the handlers. -/
inductive Effect (p : Plant) (s : Masters) : Action → Masters → Prop
  | refuse {m k v valid} (hquiet : s.Quiet) (haccept : p.accept m k v valid = none) :
      Effect p s (.entry m k v valid) s
  | accept {m k v valid reg unit} (hquiet : s.Quiet) (hsound : s.device.touchedEmpty = false)
      (haccept : p.accept m k v valid = some (reg, unit)) :
      Effect p s (.entry m k v valid) ((s.record p m reg unit).issue p .op_write
        (writeRequest p m unit reg v (s.accepted (m, reg.key)).length))
  | poll {m i read} (hquiet : s.Quiet) (hsound : s.device.touchedEmpty = false) :
      Effect p s (.poll m i) (s.issue p .op_read (pollRequest p m i read))
  | nextReq {sent} (hquiet : s.Quiet) (hsound : s.device.touchedEmpty = false) :
      Effect p s (.nextReq sent)
        { s with device := s.device.nextReq sent, calling := if sent then none else s.upNext }
  | failed {x d} (hquiet : s.Quiet) (hsound : s.device.touchedEmpty = false)
      (hflight : s.device.flight = some x) (hd : s.device.finished true = some d) :
      Effect p s (.finished true) { s with device := d, calling := some x }
  | succeeded {x d} (hquiet : s.Quiet) (hsound : s.device.touchedEmpty = false)
      (hacking : s.acking = none)
      (hflight : s.device.flight = some x) (hd : s.device.finished false = some d) :
      Effect p s (.finished false) (({ s with device := d } : Masters).succeed x)
  | giveUp {x} (hcalling : s.calling = some x)
      (hnone : ∀ {m reg v seq}, x.req.cb = .write m reg v seq →
        ∀ record, s.inFlight (m, reg.key) = some record → record.retriesLeft = 0) :
      Effect p s .callback { s with calling := none }
  | retry {x m reg v seq record} (hcalling : s.calling = some x)
      (hsound : s.device.touchedEmpty = false) (hcb : x.req.cb = .write m reg v seq)
      (hrecord : s.inFlight (m, reg.key) = some record) (hleft : 0 < record.retriesLeft) :
      Effect p s .callback ((({ s with calling := none } : Masters).spend (m, reg.key) record).issue
        p .op_write (writeRequest p m record.unit reg (s.captured x v) record.seq))
  | callbackReturns {d} (hcalling : s.calling = none) (hsound : s.device.touchedEmpty = false)
      (hd : s.device.callbackReturns p.device = some d) :
      Effect p s .callbackReturns { s with device := d }
  | emitted {r} (hquiet : s.Quiet) (hacking : s.acking = some r) :
      Effect p s .emitted
        { s with inFlight := Function.update s.inFlight r none, acking := none }

/-- The callback of a failed write retries if its register has a record with retries left. -/
theorem retrying_eq_some {s : Masters} {x : Issued Callback} {m : ℕ}
    {reg : PreparedWriteRegister} {v : Scalar} {seq : ℕ} {record : InFlight}
    (hcalling : s.calling = some x) (hcb : x.req.cb = .write m reg v seq)
    (hrecord : s.inFlight (m, reg.key) = some record) (hleft : 0 < record.retriesLeft) :
    s.retrying = some (x, reg, record) := by
  simp only [retrying, hcalling, Option.bind_eq_bind, Option.bind_some, hcb, hrecord,
    if_neg (Nat.pos_iff_ne_zero.mp hleft)]

/-- A call of `Execute` goes through exactly on a sound device. -/
theorem execute_eq_some {s t : Masters} {op : Op} {req : Request Callback}
    (h : s.execute p op req = some t) : s.device.touchedEmpty = false ∧ t = s.issue p op req := by
  unfold execute MasterDevice.step at h
  split at h
  · cases h
  · next hsound =>
    cases h
    exact ⟨by simpa using hsound, rfl⟩

/-- A callback called with an error takes the effect of its kind: a poll logs, a write retries or
gives up. -/
private theorem fail_effect {s t : Masters} {x : Issued Callback} (hcalling : s.calling = some x)
    (h : s.fail p x = some t) : Effect p s .callback t := by
  unfold fail at h
  cases hcb : x.req.cb with
  | poll m i =>
    simp only [hcb, Option.some_inj] at h
    subst h
    exact .giveUp hcalling (by simp [hcb])
  | write m reg v seq =>
    simp only [hcb, Masters.retry] at h
    cases hrecord : s.inFlight (m, reg.key) with
    | none =>
      simp only [hrecord, Option.some_inj] at h
      subst h
      apply Effect.giveUp hcalling
      rintro m' reg' v' seq' heq record hsome
      rw [hcb] at heq
      cases heq
      rw [hrecord] at hsome
      cases hsome
    | some record =>
      simp only [hrecord] at h
      split at h
      · next hzero =>
        cases h
        apply Effect.giveUp hcalling
        rintro m' reg' v' seq' heq record' hsome
        rw [hcb] at heq
        cases heq
        rw [hrecord] at hsome
        cases hsome
        exact hzero
      · next hpos =>
        obtain ⟨hsound, rfl⟩ := execute_eq_some h
        exact .retry hcalling hsound hcb hrecord (Nat.pos_of_ne_zero hpos)

/-- Every step has one of these effects. -/
theorem effect_of_step {s t : Masters} {a : Action} (h : s.step p a = some t) :
    Effect p s a t := by
  unfold step at h
  cases a with
  | entry m k v valid =>
    dsimp only at h
    split at h
    · next hquiet =>
      split at h
      · next haccept =>
        cases h
        exact .refuse hquiet haccept
      · next reg unit haccept =>
        obtain ⟨hsound, rfl⟩ := execute_eq_some h
        exact .accept hquiet hsound haccept
    · cases h
  | poll m i =>
    dsimp only at h
    split at h
    · next hquiet =>
      obtain ⟨read, _, h⟩ := Option.bind_eq_some_iff.mp h
      obtain ⟨hsound, rfl⟩ := execute_eq_some h
      exact .poll hquiet.1 hsound
    · cases h
  | nextReq sent =>
    dsimp only at h
    split at h
    · next hquiet =>
      obtain ⟨d, hd, h⟩ := Option.bind_eq_some_iff.mp h
      cases h
      unfold MasterDevice.step at hd
      split at hd
      · cases hd
      · next hsound =>
        simp only [hquiet.1.2, List.isEmpty_nil, if_true, Option.some_inj] at hd
        subst hd
        exact .nextReq hquiet.1 (by simpa using hsound)
    · cases h
  | finished failed =>
    dsimp only at h
    split at h
    · next hquiet =>
      obtain ⟨x, hx, h⟩ := Option.bind_eq_some_iff.mp h
      obtain ⟨d, hd, h⟩ := Option.bind_eq_some_iff.mp h
      unfold MasterDevice.step at hd
      split at hd
      · cases hd
      · next hsound =>
        simp only [hquiet.1.2, List.isEmpty_nil, if_true] at hd
        cases failed with
        | true =>
          cases h
          exact .failed hquiet.1 (by simpa using hsound) hx hd
        | false =>
          cases h
          exact .succeeded hquiet.1 (by simpa using hsound) hquiet.2 hx hd
    · cases h
  | callback =>
    obtain ⟨x, hx, h⟩ := Option.bind_eq_some_iff.mp h
    exact fail_effect hx h
  | callbackReturns =>
    dsimp only at h
    split at h
    · next hcalling =>
      obtain ⟨d, hd, h⟩ := Option.bind_eq_some_iff.mp h
      cases h
      unfold MasterDevice.step at hd
      split at hd
      · cases hd
      · next hsound => exact .callbackReturns hcalling (by simpa using hsound) hd
    · cases h
  | emitted =>
    dsimp only at h
    split at h
    · next hquiet =>
      obtain ⟨r, hr, h⟩ := Option.bind_eq_some_iff.mp h
      cases h
      exact .emitted hquiet hr
    · cases h

/-- `Execute` appends its request. -/
theorem issued_issue (s : Masters) (op : Op) (req : Request Callback) :
    (s.issue p op req).device.issued = s.device.issued ++ [s.device.nextIssued op req] :=
  (s.device.Execute_frame p.device op req).1

/-- A step issues new requests after the old ones. -/
theorem issued_prefix_of_step {s t : Masters} {a : Action} (h : s.step p a = some t) :
    s.device.issued <+: t.device.issued := by
  cases effect_of_step h with
  | refuse => exact List.prefix_rfl
  | accept => exact (issued_issue ..).symm ▸ List.prefix_append _ _
  | poll => exact (issued_issue ..).symm ▸ List.prefix_append _ _
  | nextReq => exact (s.device.nextReq_frame _).1.symm ▸ List.prefix_rfl
  | failed _ _ _ hd => exact (MasterDevice.finished_frame hd).2.2.1.symm ▸ List.prefix_rfl
  | @succeeded x d _ _ _ _ hd =>
    have hissued : (({ s with device := d } : Masters).succeed x).device.issued = d.issued := by
      unfold succeed
      split
      · rfl
      · unfold Masters.ok
        split <;> rfl
    exact (hissued.trans (MasterDevice.finished_frame hd).2.2.1).symm ▸ List.prefix_rfl
  | giveUp => exact List.prefix_rfl
  | retry => exact (issued_issue ..).symm ▸ List.prefix_append _ _
  | callbackReturns _ _ hd => exact (MasterDevice.callbackReturns_frame hd).1.symm ▸ List.prefix_rfl
  | emitted => exact List.prefix_rfl

end Masters

end Radapter.Modbus
