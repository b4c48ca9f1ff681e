import Radapter.Modbus.DevicePlaces
import Radapter.Modbus.WriteOrder

/-!
# Attempts to write a value

A register has one record for all its writes. The record belongs to the most recent value; it
counts the attempts of that value, since every request is issued from the record and every retry
costs one of the retries left. This file states when a value is given up and has the invariant
of the records, with the steps that issue requests.
-/

namespace Radapter.Modbus

namespace Masters

variable {p : Plant}

/-- A request that carries the `n`-th accepted value of a register was acknowledged. -/
def Acked (s : Masters) (r : RegisterId) (n : ℕ) : Prop :=
  ∃ c ∈ s.device.called, c.failed = false ∧ c.request.seqFor r = some n

instance (s : Masters) (r : RegisterId) (n : ℕ) : Decidable (s.Acked r n) :=
  inferInstanceAs (Decidable (∃ c ∈ s.device.called, _ ∧ _))

/-- The callback is that of a poll, or of a write of the most recent value of its register. -/
def Newest (s : Masters) : Callback → Prop
  | .poll _ _ => True
  | .write m reg _ seq => seq + 1 = (s.accepted (m, reg.key)).length

instance (s : Masters) : (cb : Callback) → Decidable (s.Newest cb)
  | .poll _ _ => isTrue trivial
  | .write m reg _ seq =>
      inferInstanceAs (Decidable (seq + 1 = (s.accepted (m, reg.key)).length))

/-- The condition on a step: what is acknowledged is the most recent value of its register, no
listener of the message that `ok` sends changes the register before `ok` erases its record, and
the callback of an overflow does not retry. -/
def KeepsRecord (p : Plant) (s : Masters) : Action → Prop
  | .entry m k v valid => (p.accept m k v valid).isSome → s.acking ≠ some (m, k)
  | .finished failed => failed = false → ∀ x ∈ s.device.flight, s.Newest x.req.cb
  | .callback => s.device.stack ≠ [] → s.retrying = none
  | _ => True

instance (p : Plant) (s : Masters) : (a : Action) → Decidable (s.KeepsRecord p a)
  | .entry m k v valid =>
      inferInstanceAs (Decidable ((p.accept m k v valid).isSome → s.acking ≠ some (m, k)))
  | .finished failed =>
      inferInstanceAs (Decidable (failed = false → ∀ x ∈ s.device.flight, s.Newest x.req.cb))
  | .callback => inferInstanceAs (Decidable (s.device.stack ≠ [] → s.retrying = none))
  | .poll _ _ => isTrue trivial
  | .nextReq _ => isTrue trivial
  | .callbackReturns => isTrue trivial
  | .emitted => isTrue trivial

/-- The number of requests of a list that carry the `n`-th accepted value of a register. -/
def attempts (l : List (Issued Callback)) (r : RegisterId) (n : ℕ) : ℕ :=
  l.countP fun x => x.seqFor r = some n

/-- Another attempt is certain: one is kept by the device, a failed request of the register is
about to retry, or the value was acknowledged. -/
def Trying (s : Masters) (r : RegisterId) (n : ℕ) : Prop :=
  (∃ x ∈ s.device.issued, x.seqFor r = some n ∧ 0 < s.device.places x) ∨
    (∃ x k, s.calling = some x ∧ x.seqFor r = some k) ∨ s.Acked r n

/-- The run invariant. A record counts the attempts of its value and is erased only after an
acknowledgement, and while it has retries left the next attempt is certain. -/
structure Tracked (p : Plant) (s : Masters) : Prop where
  ordered : Ordered s
  inv : MasterDevice.Inv p.device s.device
  alive : s.device.destroyed = []
  top : ∀ x, s.calling = some x → ∀ f ∈ s.device.stack, f.victim = x
  victims : s.calling = none → ∀ f ∈ s.device.stack, ∀ r n record,
    f.victim.seqFor r = some n → s.inFlight r = some record → record.retriesLeft = 0
  counted : ∀ r record, s.inFlight r = some record →
    record.retriesLeft ≤ (p.masters r.1).write_retries ∧
      attempts s.device.issued r record.seq =
        1 + ((p.masters r.1).write_retries - record.retriesLeft)
  trying : ∀ r record, s.inFlight r = some record → 0 < record.retriesLeft →
    s.Trying r record.seq
  settled : ∀ r n, n + 1 = (s.accepted r).length → s.inFlight r = none → s.Acked r n
  acking : ∀ r n, s.acking = some r → n + 1 = (s.accepted r).length → s.Acked r n

/-- What was acknowledged stays so. -/
theorem Acked.mono {s t : Masters} {r : RegisterId} {n : ℕ} (h : s.Acked r n)
    (hcalled : ∀ c ∈ s.device.called, c ∈ t.device.called) : t.Acked r n := by
  obtain ⟨c, hc, hok⟩ := h
  exact ⟨c, hcalled c hc, hok⟩

/-- A new request counts if it carries the value. -/
theorem attempts_concat (l : List (Issued Callback)) (x : Issued Callback) (r : RegisterId)
    (n : ℕ) : attempts (l ++ [x]) r n = attempts l r n + if x.seqFor r = some n then 1 else 0 := by
  simp [attempts, List.countP_append, List.countP_cons]

/-- A call of `Execute` while no other waits, once the records are in place: the request it
issues counts as an attempt and is certain. -/
private theorem Tracked.issue {u : Masters} {op : Op} {req : Request Callback}
    (hlimit : 0 < p.device.limit op) (hordered : Ordered (u.issue p op req))
    (hinv : MasterDevice.Inv p.device u.device) (halive : u.device.destroyed = [])
    (hstack : u.device.stack = [])
    (hcounted : ∀ r record, u.inFlight r = some record →
      record.retriesLeft ≤ (p.masters r.1).write_retries ∧
        attempts (u.device.issued ++ [u.device.nextIssued op req]) r record.seq =
          1 + ((p.masters r.1).write_retries - record.retriesLeft))
    (htrying : ∀ r record, u.inFlight r = some record → 0 < record.retriesLeft →
      (∃ x ∈ u.device.issued, x.seqFor r = some record.seq ∧ 0 < u.device.places x) ∨
        req.cb.seqFor r = some record.seq ∨ u.Acked r record.seq)
    (hsettled : ∀ r n, n + 1 = (u.accepted r).length → u.inFlight r = none → u.Acked r n)
    (hacking : ∀ r n, u.acking = some r → n + 1 = (u.accepted r).length → u.Acked r n) :
    Tracked p (u.issue p op req) := by
  obtain ⟨hissued, hdestroyed⟩ := u.device.Execute_frame p.device op req
  have hcalled : ∀ c ∈ u.device.called, c ∈ (u.issue p op req).device.called :=
    fun c hc => u.device.mem_called_Execute p.device op req hc
  refine ⟨hordered, hinv.execute hlimit (by simp [hstack]), hdestroyed.trans halive, ?_, ?_, ?_, ?_,
    fun r n hn hnone => (hsettled r n hn hnone).mono hcalled,
    fun r n hr hn => (hacking r n hr hn).mono hcalled⟩
  · intro x hx f hf
    simp only [Masters.issue] at hx hf
    rcases u.device.Execute_cases p.device op req with
      ⟨hroom, _⟩ | ⟨hfull, v, hv, heq⟩ | ⟨_, _, heq⟩
    · rw [if_neg hroom] at hx
      cases hx
    · rw [if_pos hfull, hv] at hx
      cases hx
      rw [heq, hstack] at hf
      rw [List.mem_singleton.mp hf]
    · rw [heq, hstack] at hf
      cases hf
  · intro hnone f hf
    simp only [Masters.issue] at hnone hf
    rcases u.device.Execute_cases p.device op req with
      ⟨_, heq⟩ | ⟨hfull, v, hv, _⟩ | ⟨_, _, heq⟩
    · rw [heq] at hf
      change f ∈ u.device.stack at hf
      rw [hstack] at hf
      cases hf
    · rw [if_pos hfull, hv] at hnone
      cases hnone
    · rw [heq, hstack] at hf
      cases hf
  · intro r record hrecord
    change _ ∧ attempts (u.device.Execute p.device op req).issued r record.seq = _
    rw [hissued]
    exact hcounted r record hrecord
  · intro r record hrecord hleft
    rcases htrying r record hrecord hleft with ⟨x, hx, hseq, hplaces⟩ | hnew | hacked
    · refine .inl ⟨x, ?_, hseq, ?_⟩
      · change x ∈ (u.device.Execute p.device op req).issued
        rw [hissued]
        exact List.mem_append_left _ hx
      · exact Nat.lt_of_lt_of_le hplaces (u.device.places_le_Execute p.device op req x)
    · refine .inl ⟨u.device.nextIssued op req, ?_, hnew, ?_⟩
      · change _ ∈ (u.device.Execute p.device op req).issued
        rw [hissued]
        simp
      · exact u.device.places_Execute_pos hlimit req
    · exact .inr (.inr (hacked.mono hcalled))

/-- A poll is no attempt. -/
theorem Tracked.poll {s : Masters} (h : Tracked p s) (hquiet : s.Quiet)
    (hlimit : 0 < p.device.limit .op_read) {m i : ℕ} {read : MergedRead}
    (hordered : Ordered (s.issue p .op_read (pollRequest p m i read))) :
    Tracked p (s.issue p .op_read (pollRequest p m i read)) := by
  refine .issue hlimit hordered h.inv h.alive hquiet.2 ?_ ?_ h.settled h.acking
  · intro r record hrecord
    rw [attempts_concat, if_neg (by simp [Issued.seqFor, MasterDevice.nextIssued, pollRequest,
      Callback.seqFor]), Nat.add_zero]
    exact h.counted r record hrecord
  · intro r record hrecord hleft
    rcases h.trying r record hrecord hleft with hkept | ⟨x, k, hx, _⟩ | hacked
    · exact .inl hkept
    · rw [hquiet.1] at hx
      cases hx
    · exact .inr (.inr hacked)

/-- A write issued from the record of its register, which it counts as one more attempt. The
callback that is running, if there is one, is of the same register. -/
private theorem Tracked.write {s u : Masters} (h : Tracked p s)
    (hlimit : 0 < p.device.limit .op_write) (hstack : s.device.stack = [])
    {m : ℕ} {reg : PreparedWriteRegister} {unit : QModbusDataUnit} {v : Scalar}
    (record : InFlight)
    (hordered : Ordered (u.issue p .op_write (writeRequest p m unit reg v record.seq)))
    (hdevice : u.device = s.device)
    (hother : ∀ r, r ≠ (m, reg.key) →
      u.inFlight r = s.inFlight r ∧ u.accepted r = s.accepted r)
    (hrecord : u.inFlight (m, reg.key) = some record)
    (hcounted : record.retriesLeft ≤ (p.masters m).write_retries ∧
      attempts s.device.issued (m, reg.key) record.seq =
        (p.masters m).write_retries - record.retriesLeft)
    (hcalling : ∀ x r n, s.calling = some x → x.seqFor r = some n → r = (m, reg.key))
    (hacking : ∀ r n, u.acking = some r → n + 1 = (u.accepted r).length → s.Acked r n) :
    Tracked p (u.issue p .op_write (writeRequest p m unit reg v record.seq)) := by
  have hacked : ∀ r n, s.Acked r n → u.Acked r n :=
    fun r n hn => hn.mono (by simp [hdevice])
  have hseq : ∀ r, (writeRequest p m unit reg v record.seq).cb.seqFor r =
      if (m, reg.key) = r then some record.seq else none := fun r => rfl
  refine .issue hlimit hordered (hdevice ▸ h.inv) (hdevice ▸ h.alive) (hdevice ▸ hstack) ?_ ?_ ?_
    fun r n hr hn => hacked r n (hacking r n hr hn)
  · intro r record' hrecord'
    have hnew : (u.device.nextIssued .op_write (writeRequest p m unit reg v record.seq)).seqFor r =
        if (m, reg.key) = r then some record.seq else none := hseq r
    rw [attempts_concat, hnew, hdevice]
    by_cases hr : r = (m, reg.key)
    · subst hr
      rw [hrecord] at hrecord'
      cases hrecord'
      rw [if_pos rfl, if_pos rfl, hcounted.2]
      exact ⟨hcounted.1, Nat.add_comm _ _⟩
    · rw [(hother r hr).1] at hrecord'
      rw [if_neg (Ne.symm hr), if_neg (by simp), Nat.add_zero]
      exact h.counted r record' hrecord'
  · intro r record' hrecord' hleft
    by_cases hr : r = (m, reg.key)
    · subst hr
      rw [hrecord] at hrecord'
      cases hrecord'
      exact .inr (.inl (by rw [hseq, if_pos rfl]))
    · rw [(hother r hr).1] at hrecord'
      rw [hdevice]
      rcases h.trying r record' hrecord' hleft with hkept | ⟨x, k, hx, hk⟩ | hdone
      · exact .inl hkept
      · exact absurd (hcalling x r k hx hk) hr
      · exact .inr (.inr (hacked r _ hdone))
  · intro r n hn hnone
    by_cases hr : r = (m, reg.key)
    · rw [hr, hrecord] at hnone
      cases hnone
    · rw [(hother r hr).1] at hnone
      rw [(hother r hr).2] at hn
      exact hacked r n (h.settled r n hn hnone)

/-- A new value: its record has all retries left, and no request carries it yet. -/
theorem Tracked.accept {s : Masters} (h : Tracked p s) (hquiet : s.Quiet)
    (hlimit : 0 < p.device.limit .op_write) {m : ℕ} {reg : PreparedWriteRegister}
    {unit : QModbusDataUnit} {v : Scalar} (hacking : s.acking ≠ some (m, reg.key))
    (hordered : Ordered ((s.record p m reg unit).issue p .op_write
      (writeRequest p m unit reg v (s.accepted (m, reg.key)).length))) :
    Tracked p ((s.record p m reg unit).issue p .op_write
      (writeRequest p m unit reg v (s.accepted (m, reg.key)).length)) := by
  have hnone : attempts s.device.issued (m, reg.key) (s.accepted (m, reg.key)).length = 0 := by
    refine List.countP_eq_zero.mpr fun x hx hseq => ?_
    have hold := h.ordered.carries x hx _ _ (of_decide_eq_true hseq)
    rw [List.getElem?_eq_none (Nat.le_refl _)] at hold
    cases hold
  refine h.write hlimit hquiet.2 { unit := unit, retriesLeft := _, seq := _ } hordered rfl ?_
    (Function.update_self ..) ⟨Nat.le_refl _, ?_⟩ ?_ ?_
  · intro r hr
    exact ⟨Function.update_of_ne hr .., Function.update_of_ne hr ..⟩
  · rw [hnone, Nat.sub_self]
  · intro x r n hx
    rw [hquiet.1] at hx
    cases hx
  · intro r n hr hn
    have hne : r ≠ (m, reg.key) := by
      rintro rfl
      exact hacking hr
    simp only [Masters.record, Function.update_of_ne hne] at hn
    exact h.acking r n hr hn

/-- A retry spends one of the retries left. -/
theorem Tracked.retry {s : Masters} (h : Tracked p s) (hstack : s.device.stack = [])
    (hlimit : 0 < p.device.limit .op_write) {x : Issued Callback} {m : ℕ}
    {reg : PreparedWriteRegister} {v w : Scalar} {seq : ℕ} {record : InFlight}
    (hcalling : s.calling = some x) (hcb : x.req.cb = .write m reg v seq)
    (hrecord : s.inFlight (m, reg.key) = some record) (hleft : 0 < record.retriesLeft)
    (hordered : Ordered ((({ s with calling := none } : Masters).spend (m, reg.key) record).issue p
      .op_write (writeRequest p m record.unit reg w record.seq))) :
    Tracked p ((({ s with calling := none } : Masters).spend (m, reg.key) record).issue p
      .op_write (writeRequest p m record.unit reg w record.seq)) := by
  obtain ⟨hle, hattempts⟩ := h.counted _ record hrecord
  refine h.write hlimit hstack { record with retriesLeft := record.retriesLeft - 1 } hordered rfl ?_
    (Function.update_self ..) ⟨?_, ?_⟩ ?_ h.acking
  · intro r hr
    exact ⟨Function.update_of_ne hr .., rfl⟩
  · exact Nat.le_trans (Nat.sub_le _ _) hle
  · rw [hattempts]
    dsimp only at hle ⊢
    omega
  · rintro y ⟨m', k⟩ n hy hn
    rw [hcalling] at hy
    cases hy
    obtain ⟨reg', v', hcb', rfl⟩ := Issued.seqFor_eq_some.mp hn
    rw [hcb] at hcb'
    cases hcb'
    rfl

end Masters

end Radapter.Modbus
