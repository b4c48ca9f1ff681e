import Radapter.Modbus.DeviceCalls
import Radapter.Modbus.MasterSteps

/-!
# The value reported after an acknowledged write

For a write-only register `ok` reports the value that was captured with the acknowledged
request. A retry pairs the captured value of the failed request with the unit of the register's
record. The two belong together as long as no newer message has replaced the record, and as long
as the callback runs for the first time, since a second call finds the value moved out.
-/

namespace Radapter.Modbus

namespace Masters

variable {p : Plant}

/-- Every reported value is one whose encoding was in the acknowledged request. -/
def ReportsWritten (p : Plant) (s : Masters) : Prop :=
  ∀ e ∈ s.emitted, ∃ reg, (p.masters e.register.1).writable e.register.2 = some reg ∧
    encodeRegister p.qt reg.toPreparedRegister e.value = .ok e.acknowledged.values

/-- The condition on a step: a retry for a write-only register finds its own unit in the record,
and its callback has not been called before. -/
def RetriesOwnValue (s : Masters) : Action → Prop
  | .callback => ∀ q ∈ s.retrying, q.2.1.writeOnly = true →
      q.2.2.unit = q.1.req.unit ∧ s.device.calls q.1 = 1
  | _ => True

instance (s : Masters) : (a : Action) → Decidable (s.RetriesOwnValue a)
  | .callback => inferInstanceAs (Decidable (∀ q ∈ s.retrying, q.2.1.writeOnly = true →
      q.2.2.unit = q.1.req.unit ∧ s.device.calls q.1 = 1))
  | .entry _ _ _ _ => isTrue trivial
  | .poll _ _ => isTrue trivial
  | .nextReq _ => isTrue trivial
  | .finished _ => isTrue trivial
  | .callbackReturns => isTrue trivial
  | .emitted => isTrue trivial

/-- A request for a register of its master; for a write-only register it carries the encoding of
the value captured with it. -/
def Honest (p : Plant) (req : Request Callback) : Prop :=
  ∀ m reg v seq, req.cb = .write m reg v seq →
    (p.masters m).writable reg.key = some reg ∧
      (reg.writeOnly = true → encodeRegister p.qt reg.toPreparedRegister v = .ok req.unit.values)

/-- The run invariant. -/
structure Truthful (p : Plant) (s : Masters) : Prop where
  clean : s.device.Clean p.device
  alive : s.device.destroyed = []
  known : ∀ x, s.calling = some x → x ∈ s.device.issued
  honest : ∀ x ∈ s.device.issued, Honest p x.req
  reported : s.ReportsWritten p

/-- A queued request was issued. -/
private theorem Truthful.mem_of_queue {s : Masters} (h : Truthful p s) {op : Op}
    {x : Issued Callback} (hx : x ∈ s.device.queue op) : x ∈ s.device.issued := by
  apply h.clean.mem_of_kept
  have hpos := List.count_pos_iff.mpr hx
  have hle := s.device.count_queue_le_waiting op x
  unfold MasterDevice.kept
  omega

/-- The request in flight was issued. -/
private theorem Truthful.mem_of_flight {s : Masters} (h : Truthful p s) {x : Issued Callback}
    (hx : s.device.flight = some x) : x ∈ s.device.issued := by
  apply h.clean.mem_of_kept
  unfold MasterDevice.kept
  rw [hx, Option.toList_some, List.count_singleton_self]
  omega

/-- A call of `Execute` with an honest request. -/
private theorem Truthful.issue {s : Masters} (h : Truthful p s) {op : Op}
    {req : Request Callback} (hreq : Honest p req) : Truthful p (s.issue p op req) := by
  obtain ⟨hissued, hdestroyed⟩ := s.device.Execute_frame p.device op req
  refine ⟨h.clean.execute op req, hdestroyed.trans h.alive, ?_, ?_, h.reported⟩
  · intro x hx
    change x ∈ (s.device.Execute p.device op req).issued
    rw [hissued]
    simp only [Masters.issue] at hx
    split at hx
    · exact List.mem_append_left _ (h.mem_of_queue (OverflowBehaviour.victim_mem hx))
    · cases hx
  · intro x hx
    change x ∈ (s.device.Execute p.device op req).issued at hx
    rw [hissued] at hx
    rcases List.mem_append.mp hx with hx | hx
    · exact h.honest x hx
    · rw [List.mem_singleton.mp hx]
      exact hreq

/-- Steps that leave the device and the reports alone. -/
private theorem Truthful.congr {s t : Masters} (h : Truthful p s) (hdevice : t.device = s.device)
    (hcalling : t.calling = s.calling ∨ t.calling = none) (hemitted : t.emitted = s.emitted) :
    Truthful p t := by
  refine ⟨hdevice ▸ h.clean, hdevice ▸ h.alive, ?_, hdevice ▸ h.honest, ?_⟩
  · intro x hx
    rw [hdevice]
    rcases hcalling with hcalling | hcalling
    · exact h.known x (hcalling ▸ hx)
    · rw [hcalling] at hx
      cases hx
  · rw [ReportsWritten, hemitted]
    exact h.reported

/-- The callback of a request in flight finds its value. -/
private theorem Truthful.captured_flight {s : Masters} (h : Truthful p s) {x : Issued Callback}
    (hflight : s.device.flight = some x) {d : MasterDevice Callback} {failed : Bool}
    (hd : s.device.finished failed = some d) (v : Scalar) :
    ({ s with device := d } : Masters).captured x v = v := by
  have hzero := h.clean.calls_flight hflight
  have hone : d.calls x = 1 := by
    unfold MasterDevice.finished at hd
    simp only [hflight, h.alive, List.not_mem_nil, if_false, Option.some_inj] at hd
    subst hd
    have hcalls := s.device.calls_concat x x failed
    rw [hzero, List.count_singleton_self] at hcalls
    exact hcalls
  exact if_pos hone

/-- A finished reply. -/
private theorem Truthful.finished {s : Masters} (h : Truthful p s) (hquiet : s.Quiet)
    {x : Issued Callback} (hx : s.device.flight = some x) {d : MasterDevice Callback}
    {failed : Bool} (hd : s.device.finished failed = some d)
    {calling : Option (Issued Callback)} (hcalling : calling = none ∨ calling = some x) :
    Truthful p { s with device := d, calling := calling } := by
  obtain ⟨_, _, hissued, _, hdestroyed⟩ := MasterDevice.finished_frame hd
  refine ⟨h.clean.finished hquiet.2 hd, hdestroyed.trans h.alive, ?_, ?_, h.reported⟩
  · intro y hy
    change y ∈ d.issued
    rw [hissued]
    rcases hcalling with rfl | rfl
    · cases hy
    · cases hy
      exact h.mem_of_flight hx
  · intro y hy
    exact h.honest y (hissued ▸ hy)

/-- The next request stands in one of the queues. -/
private theorem upNext_mem {s : Masters} {x : Issued Callback} (h : s.upNext = some x) :
    ∃ op, x ∈ s.device.queue op := by
  unfold upNext at h
  split at h
  · cases h
  · rcases Option.or_eq_some_iff.mp h with h | ⟨_, h⟩
    · exact ⟨.op_write, List.mem_of_head? h⟩
    · exact ⟨.op_read, List.mem_of_head? h⟩

/-- A tick. -/
private theorem Truthful.nextReq {s : Masters} (h : Truthful p s) (hquiet : s.Quiet)
    (sent : Bool) : Truthful p
      { s with device := s.device.nextReq sent, calling := if sent then none else s.upNext } := by
  obtain ⟨hissued, hdestroyed, _⟩ := s.device.nextReq_frame sent
  refine ⟨h.clean.nextReq hquiet.2 sent, hdestroyed.trans h.alive, ?_, ?_, h.reported⟩
  · intro x hx
    change x ∈ (s.device.nextReq sent).issued
    rw [hissued]
    cases sent with
    | true => cases hx
    | false =>
      obtain ⟨op, hmem⟩ := upNext_mem hx
      exact h.mem_of_queue hmem
  · intro x hx
    exact h.honest x (hissued ▸ hx)

/-- An acknowledged write reports the value whose encoding it carried. -/
private theorem Truthful.succeed {s t : Masters} (h : Truthful p s) {x : Issued Callback}
    (hx : Honest p x.req) (ht : Truthful p t)
    (hemitted : t.emitted = s.emitted)
    (hcaptured : ∀ v, t.captured x v = v) : Truthful p (t.succeed x) := by
  unfold Masters.succeed
  cases hcb : x.req.cb with
  | poll m i => exact ht
  | write m reg v seq =>
    simp only [hcaptured, Masters.ok]
    split
    · next hwriteOnly =>
      refine ⟨ht.clean, ht.alive, ht.known, ht.honest, ?_⟩
      intro e he
      rcases List.mem_append.mp he with he | he
      · exact h.reported e (hemitted ▸ he)
      · rw [List.mem_singleton.mp he]
        obtain ⟨hreg, hvalue⟩ := hx m reg v seq hcb
        exact ⟨reg, hreg, hvalue hwriteOnly⟩
    · exact ht.congr rfl (.inl rfl) rfl

/-- Every step that meets the condition keeps the invariant. -/
theorem Truthful.step {s t : Masters} {a : Action} (h : Truthful p s)
    (hown : s.RetriesOwnValue a) (ht : s.step p a = some t) : Truthful p t := by
  cases effect_of_step ht with
  | refuse => exact h
  | @accept m k v valid reg unit _ _ haccept =>
    have hrecorded : Truthful p (s.record p m reg unit) := h.congr rfl (.inl rfl) rfl
    apply hrecorded.issue
    intro m' reg' v' seq' heq
    cases heq
    obtain ⟨_, hreg, hvalue⟩ := accept_eq_some haccept
    refine ⟨hreg, fun hwriteOnly => ?_⟩
    rw [if_pos hwriteOnly]
    exact hvalue
  | poll => exact h.issue (by intro m reg v seq heq; cases heq)
  | nextReq hquiet => exact h.nextReq hquiet _
  | failed hquiet _ hflight hd => exact h.finished hquiet hflight hd (.inr rfl)
  | succeeded hquiet _ _ hflight hd =>
    refine h.succeed (h.honest _ (h.mem_of_flight hflight)) ?_ rfl
      (h.captured_flight hflight hd)
    exact h.finished hquiet hflight hd (.inl hquiet.1)
  | giveUp => exact h.congr rfl (.inr rfl) rfl
  | @retry x m reg v seq record hcalling _ hcb hrecord hleft =>
    have hspent : Truthful p (({ s with calling := none } : Masters).spend (m, reg.key) record) :=
      h.congr rfl (.inr rfl) rfl
    apply hspent.issue
    intro m' reg' v' seq' heq
    cases heq
    obtain ⟨hreg, hvalue⟩ := h.honest x (h.known x hcalling) m reg v seq hcb
    refine ⟨hreg, fun hwriteOnly => ?_⟩
    obtain ⟨hunit, hfirst⟩ :=
      hown _ (retrying_eq_some hcalling hcb hrecord hleft) hwriteOnly
    rw [if_pos hwriteOnly, captured, if_pos hfirst]
    change encodeRegister p.qt reg.toPreparedRegister v = .ok record.unit.values
    rw [hunit]
    exact hvalue hwriteOnly
  | callbackReturns hcalling _ hd =>
    obtain ⟨hissued, _, hdestroyed⟩ := MasterDevice.callbackReturns_frame hd
    refine ⟨h.clean.callbackReturns hd, hdestroyed.trans h.alive, ?_, ?_, h.reported⟩
    · intro x hx
      rw [hcalling] at hx
      cases hx
    · intro x hx
      exact h.honest x (hissued ▸ hx)
  | emitted => exact h.congr rfl (.inl rfl) rfl

end Masters

end Radapter.Modbus
