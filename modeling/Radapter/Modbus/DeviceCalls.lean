import Radapter.Modbus.DeviceRuns

/-!
# Which requests have been called back

Without any condition on the callers, a request that has been called back may still be in its
queue only as the end of the queue that a waiting call of `Execute` will remove. In particular a
request that is sent has not been called back before.
-/

namespace Radapter.Modbus

variable {γ : Type*}

/-- Every mode takes one request out of the queue. -/
theorem OverflowBehaviour.length_pop {α : Type*} (mode : OverflowBehaviour) (q : List α) :
    (mode.pop q).length = q.length - 1 := by
  cases mode with
  | pop_first => exact List.length_tail
  | pop_last => exact List.length_dropLast

namespace MasterDevice

variable [DecidableEq γ]

/-- How often a request is kept: in the queues, in flight, and in the hands of waiting calls. -/
def kept (d : MasterDevice γ) (x : Issued γ) : ℕ :=
  d.waiting x + d.flight.toList.count x + (d.stack.map Overflow.pending).count x

/-- The invariant of every run: requests are kept once at most, and one that has been called back
only at the end of its queue while a call of `Execute` waits to remove it. -/
structure Clean (config : Device) (d : MasterDevice γ) : Prop where
  numbered : d.Numbered
  known : ∀ x, x ∉ d.issued → d.kept x = 0 ∧ d.calls x = 0
  single : ∀ x, d.kept x ≤ 1
  told : ∀ x, 0 < d.calls x → d.flight.toList.count x = 0 ∧
    (d.stack.map Overflow.pending).count x = 0 ∧ ∀ op, x ∈ d.queue op →
      (config.onOver op).victim (d.queue op) = some x ∧ ∃ f ∈ d.stack, f.pending.op = op
  full : ∀ f ∈ d.stack, d.Overflows config f.pending.op

/-- What stands in one queue is part of what waits. -/
theorem count_queue_le_waiting (d : MasterDevice γ) (op : Op) (x : Issued γ) :
    (d.queue op).count x ≤ d.waiting x := by
  cases op <;> unfold waiting <;> omega

/-- A request stands in one queue only, and there once. -/
theorem Clean.op_eq {config : Device} {d : MasterDevice γ} (h : Clean config d) {x : Issued γ}
    {op other : Op} (hx : x ∈ d.queue op) (hother : x ∈ d.queue other) : other = op := by
  have hone := h.single x
  have hp := List.count_pos_iff.mpr hx
  have hq := List.count_pos_iff.mpr hother
  unfold kept waiting at hone
  cases op <;> cases other <;> first | rfl | omega

/-- A called request was issued. -/
theorem Clean.mem_of_calls {config : Device} {d : MasterDevice γ} (h : Clean config d)
    {x : Issued γ} (hx : 0 < d.calls x) : x ∈ d.issued := by
  by_contra hmem
  have hzero := (h.known x hmem).2
  omega

/-- A kept request was issued. -/
theorem Clean.mem_of_kept {config : Device} {d : MasterDevice γ} (h : Clean config d)
    {x : Issued γ} (hx : 0 < d.kept x) : x ∈ d.issued := by
  by_contra hmem
  have hzero := (h.known x hmem).1
  omega

/-- Appending a new request to its queue. -/
private theorem Clean.push {config : Device} {d : MasterDevice γ} (h : Clean config d) {op : Op}
    {req : Request γ} (hroom : ¬ d.Overflows config op) :
    Clean config (({ d with issued := d.issued ++ [d.nextIssued op req] } :
      MasterDevice γ).setQueue op (d.queue op ++ [d.nextIssued op req])) := by
  have hkept : ∀ x, kept (({ d with issued := d.issued ++ [d.nextIssued op req] } :
      MasterDevice γ).setQueue op (d.queue op ++ [d.nextIssued op req])) x =
        d.kept x + [d.nextIssued op req].count x := by
    intro x
    have hwait := d.waiting_push op req x
    change _ + d.flight.toList.count x + (d.stack.map Overflow.pending).count x = _
    unfold kept
    omega
  have hnew := h.known _ (h.numbered.fresh op req)
  have hcount : ∀ x, x ≠ d.nextIssued op req → [d.nextIssued op req].count x = 0 :=
    fun x hx => List.count_eq_zero.mpr (by simpa using hx)
  have hnoframe : ∀ f ∈ d.stack, f.pending.op ≠ op := by
    rintro f hf rfl
    exact hroom (h.full f hf)
  refine ⟨h.numbered.concat op req, ?_, ?_, ?_, ?_⟩
  · intro x hx
    have hmem : x ∉ d.issued ++ [d.nextIssued op req] := hx
    have hx' : x ∉ d.issued ∧ x ≠ d.nextIssued op req := by simpa using hmem
    rw [hkept, hcount x hx'.2]
    exact h.known x hx'.1
  · intro x
    rw [hkept]
    by_cases hx : x = d.nextIssued op req
    · rw [hx, hnew.1]
      simp
    · rw [hcount x hx]
      exact h.single x
  · intro x hx
    obtain ⟨hflight, hpending, hqueue⟩ := h.told x hx
    refine ⟨hflight, hpending, fun other hmem => ?_⟩
    rcases mem_queue_setQueue hmem with ⟨rfl, hmem'⟩ | ⟨hop, hmem'⟩
    · rcases List.mem_append.mp hmem' with hold | hlast
      · obtain ⟨_, f, hf, hfop⟩ := hqueue other hold
        exact absurd hfop (hnoframe f hf)
      · rw [List.mem_singleton.mp hlast] at hx
        have hzero := hnew.2
        change 0 < d.calls _ at hx
        omega
    · rw [queue_setQueue_ne _ hop]
      exact hqueue other hmem'
  · intro f hf
    have hfull := h.full f hf
    rw [Overflows, queue_setQueue_ne _ (hnoframe f hf)]
    exact hfull

/-- Waiting for the callback of a victim. -/
private theorem Clean.wait {config : Device} {d t : MasterDevice γ} (h : Clean config d) {op : Op}
    {req : Request γ} (hfull : d.Overflows config op) {v : Issued γ}
    (hv : (config.onOver op).victim (d.queue op) = some v)
    (ht : t = { d with
      issued := d.issued ++ [d.nextIssued op req]
      called := d.called ++ [{ request := v, failed := true }]
      stack := { pending := d.nextIssued op req, victim := v } :: d.stack }) :
    Clean config t := by
  have hcalls : ∀ x, t.calls x = d.calls x + [v].count x := by
    subst ht
    exact fun x => d.calls_concat v x true
  have hpending : ∀ x, (t.stack.map Overflow.pending).count x =
      (d.stack.map Overflow.pending).count x + [d.nextIssued op req].count x := by
    subst ht
    intro x
    simp only [List.map_cons, List.count_cons, List.count_nil]
    omega
  have hkept : ∀ x, t.kept x = d.kept x + [d.nextIssued op req].count x := by
    intro x
    have hx := hpending x
    subst ht
    change d.waiting x + d.flight.toList.count x + _ = _
    unfold kept
    omega
  have hnew := h.known _ (h.numbered.fresh op req)
  have hnotnew : ∀ x ∈ d.issued, [d.nextIssued op req].count x = 0 := by
    intro x hx
    refine List.count_eq_zero.mpr fun hmem => h.numbered.fresh op req ?_
    rwa [← List.mem_singleton.mp hmem]
  have hmem := OverflowBehaviour.victim_mem hv
  have hwaiting : 0 < d.waiting v :=
    Nat.lt_of_lt_of_le (List.count_pos_iff.mpr hmem) (d.count_queue_le_waiting op v)
  have hone := h.single v
  unfold kept at hone
  have hvissued : v ∈ d.issued := h.mem_of_kept (by unfold kept; omega)
  have hframes : ∀ f ∈ d.stack, f ∈ t.stack := by
    subst ht
    exact fun f hf => List.mem_cons_of_mem _ hf
  refine ⟨by subst ht; exact h.numbered.concat op req, ?_, ?_, ?_, ?_⟩
  · intro x hx
    have hx' : x ∉ d.issued ∧ x ≠ d.nextIssued op req := by
      subst ht
      simpa using hx
    have hxv : x ≠ v := fun heq => hx'.1 (heq ▸ hvissued)
    rw [hkept, hcalls, List.count_eq_zero.mpr (by simpa using hx'.2),
      List.count_eq_zero.mpr (by simpa using hxv)]
    exact h.known x hx'.1
  · intro x
    rw [hkept]
    by_cases hx : x = d.nextIssued op req
    · rw [hx, hnew.1]
      simp
    · rw [List.count_eq_zero.mpr (by simpa using hx)]
      exact h.single x
  · intro x hx
    rw [hpending]
    have hflight : t.flight = d.flight := by rw [ht]
    have hqueue : t.queue = d.queue := by rw [ht]
    rw [hflight, hqueue]
    by_cases hxv : x = v
    · subst hxv
      have hzero := hnotnew x hvissued
      refine ⟨by omega, by omega, fun other hother => ?_⟩
      rw [h.op_eq hmem hother]
      refine ⟨hv, { pending := d.nextIssued op req, victim := x }, ?_, rfl⟩
      rw [ht]
      exact List.mem_cons_self
    · rw [hcalls, List.count_eq_zero.mpr (by simpa using hxv), Nat.add_zero] at hx
      obtain ⟨hf, hp, hq⟩ := h.told x hx
      refine ⟨hf, by rw [hp, hnotnew x (h.mem_of_calls hx)], fun other hother => ?_⟩
      obtain ⟨hend, f, hfmem, hfop⟩ := hq other hother
      exact ⟨hend, f, hframes f hfmem, hfop⟩
  · subst ht
    intro f hf
    rcases List.mem_cons.mp hf with rfl | hf
    · exact hfull
    · exact h.full f hf

/-- Any call of `Execute`. -/
theorem Clean.execute {config : Device} {d : MasterDevice γ} (h : Clean config d) (op : Op)
    (req : Request γ) : Clean config (d.Execute config op req) := by
  rcases d.Execute_cases config op req with ⟨hroom, heq⟩ | ⟨hfull, v, hv, heq⟩ | ⟨_, _, heq⟩
  · rw [heq]
    exact h.push hroom
  · exact h.wait hfull hv heq
  · rw [heq]
    refine ⟨h.numbered.concat op req, ?_, h.single, h.told, h.full⟩
    exact fun x hx => h.known x fun hmem => hx (List.mem_append_left _ hmem)

/-- The rest of a call of `Execute` removes the one request that may have been called back. -/
theorem Clean.callbackReturns {config : Device} {d t : MasterDevice γ} (h : Clean config d)
    (ht : d.callbackReturns config = some t) : Clean config t := by
  obtain ⟨f, rest, hstack, ⟨_, rfl⟩ | ⟨hne, ht⟩⟩ := callbackReturns_cases ht
  · exact ⟨h.numbered, h.known, h.single, h.told, h.full⟩
  have hpop := (config.onOver f.pending.op).pop_sublist (d.queue f.pending.op)
  have hrest : ∀ g ∈ rest, g ∈ d.stack := fun g hg => by simp [hstack, hg]
  have hcalls : ∀ x, t.calls x = d.calls x := by
    subst ht
    exact fun x => rfl
  have hpending : ∀ x, (d.stack.map Overflow.pending).count x =
      (rest.map Overflow.pending).count x + [f.pending].count x := by
    intro x
    simp only [hstack, List.map_cons, List.count_cons, List.count_nil]
    omega
  have hkept : ∀ x, t.kept x ≤ d.kept x := by
    intro x
    have hwait := waiting_popped config d f rest x
    have hp := hpending x
    have hle := hpop.count_le x
    subst ht
    change _ + d.flight.toList.count x + (rest.map Overflow.pending).count x ≤ _
    unfold kept
    omega
  have hqueue : ∀ op, op ≠ f.pending.op → t.queue op = d.queue op := by
    subst ht
    exact fun op hop => Function.update_of_ne hop ..
  have hself : t.queue f.pending.op =
      (config.onOver f.pending.op).pop (d.queue f.pending.op) ++ [f.pending] := by
    subst ht
    exact Function.update_self ..
  have htstack : t.stack = rest := by rw [ht]; rfl
  refine ⟨by subst ht; exact h.numbered, ?_, fun x => Nat.le_trans (hkept x) (h.single x), ?_, ?_⟩
  · intro x hx
    have hold := h.known x (by subst ht; exact hx)
    have hle := hkept x
    rw [hcalls]
    exact ⟨by omega, hold.2⟩
  · intro x hx
    rw [hcalls] at hx
    obtain ⟨hflight, hpend, hq⟩ := h.told x hx
    rw [hpending] at hpend
    rw [htstack]
    refine ⟨by subst ht; exact hflight, by omega, fun op hop => ?_⟩
    by_cases hopf : op = f.pending.op
    · subst hopf
      rw [hself, List.mem_append, List.mem_singleton] at hop
      rcases hop with hop | rfl
      · have hcount := OverflowBehaviour.count_pop (hq _ (hpop.mem hop)).1 x
        have hpos := List.count_pos_iff.mpr hop
        have hle := d.count_queue_le_waiting f.pending.op x
        have hone := h.single x
        rw [List.count_singleton_self] at hcount
        unfold kept at hone
        omega
      · rw [List.count_singleton_self] at hpend
        omega
    · rw [hqueue op hopf] at hop ⊢
      obtain ⟨hend, g, hg, hgop⟩ := hq op hop
      refine ⟨hend, g, ?_, hgop⟩
      rw [hstack] at hg
      rcases List.mem_cons.mp hg with rfl | hg
      · exact absurd hgop.symm hopf
      · exact hg
  · intro g hg
    rw [htstack] at hg
    have hfull := h.full g (hrest g hg)
    unfold Overflows at hfull ⊢
    by_cases hop : g.pending.op = f.pending.op
    · have hpos := List.length_pos_iff.mpr hne
      rw [hop] at hfull ⊢
      rw [hself, List.length_append, OverflowBehaviour.length_pop, List.length_singleton]
      omega
    · rw [hqueue _ hop]
      exact hfull

/-- While no call of `Execute` waits, nothing that is queued has been called back. -/
theorem Clean.calls_eq_zero {config : Device} {d : MasterDevice γ} (h : Clean config d)
    (hstack : d.stack = []) {op : Op} {x : Issued γ} (hx : x ∈ d.queue op) : d.calls x = 0 := by
  by_contra hne
  obtain ⟨_, _, hq⟩ := h.told x (Nat.pos_of_ne_zero hne)
  obtain ⟨_, f, hf, _⟩ := hq op hx
  rw [hstack] at hf
  cases hf

/-- What is in flight has not been called back. -/
theorem Clean.calls_flight {config : Device} {d : MasterDevice γ} (h : Clean config d)
    {x : Issued γ} (hx : d.flight = some x) : d.calls x = 0 := by
  by_contra hne
  have hzero := (h.told x (Nat.pos_of_ne_zero hne)).1
  rw [hx] at hzero
  simp at hzero

/-- The invariant while no call of `Execute` waits. -/
private theorem Clean.of_idle {config : Device} {d : MasterDevice γ} (hstack : d.stack = [])
    (hnumbered : d.Numbered)
    (hknown : ∀ x, x ∉ d.issued → d.waiting x + d.flight.toList.count x = 0 ∧ d.calls x = 0)
    (hsingle : ∀ x, d.waiting x + d.flight.toList.count x ≤ 1)
    (htold : ∀ x, 0 < d.calls x → d.waiting x + d.flight.toList.count x = 0) :
    Clean config d where
  numbered := hnumbered
  known := by simpa [kept, hstack] using hknown
  single := by simpa [kept, hstack] using hsingle
  told := by
    intro x hx
    have hzero := htold x hx
    refine ⟨by omega, by simp [hstack], fun op hop => ?_⟩
    have hpos := List.count_pos_iff.mpr hop
    have hle := d.count_queue_le_waiting op x
    omega
  full := by simp [hstack]

/-- When no call of `Execute` waits, a request is kept once at most, and not after it was called
back. -/
private theorem Clean.idle {config : Device} {d : MasterDevice γ} (h : Clean config d)
    (hstack : d.stack = []) : (∀ x, x ∉ d.issued → d.waiting x + d.flight.toList.count x = 0 ∧
      d.calls x = 0) ∧ (∀ x, d.waiting x + d.flight.toList.count x ≤ 1) ∧
      ∀ x, 0 < d.calls x → d.waiting x + d.flight.toList.count x = 0 := by
  refine ⟨by simpa [kept, hstack] using h.known, by simpa [kept, hstack] using h.single, ?_⟩
  intro x hx
  have hzero : ∀ op, (d.queue op).count x = 0 := by
    intro op
    refine List.count_eq_zero.mpr fun hmem => ?_
    rw [h.calls_eq_zero hstack hmem] at hx
    cases hx
  rw [(h.told x hx).1, waiting, hzero, hzero]

/-- A tick. -/
theorem Clean.nextReq {config : Device} {d : MasterDevice γ} (h : Clean config d)
    (hstack : d.stack = []) (sent : Bool) : Clean config (d.nextReq sent) := by
  obtain ⟨hknown, hsingle, htold⟩ := h.idle hstack
  rcases d.nextReq_cases sent with heq | ⟨op, x, rest, hflight, hq, _, heq⟩
  · rw [heq]
    exact h
  have hmoved : ∀ y, (d.setQueue op rest).waiting y + [x].count y = d.waiting y := by
    intro y
    have hwait := waiting_setQueue d op rest y
    rw [hq, List.count_cons] at hwait
    rw [List.count_cons, List.count_nil]
    omega
  simp only [hflight, Option.toList_none, List.count_nil, Nat.add_zero] at hknown hsingle htold
  rw [heq]
  cases sent with
  | true =>
    refine .of_idle hstack h.numbered ?_ ?_ ?_
    · intro y hy
      change (d.setQueue op rest).waiting y + [x].count y = 0 ∧ d.calls y = 0
      rw [hmoved]
      exact hknown y hy
    · intro y
      change (d.setQueue op rest).waiting y + [x].count y ≤ 1
      rw [hmoved]
      exact hsingle y
    · intro y hy
      change (d.setQueue op rest).waiting y + [x].count y = 0
      rw [hmoved]
      exact htold y hy
  | false =>
    have hcalls : ∀ y, (nextReq.send false (d.setQueue op rest) x).calls y =
        d.calls y + [x].count y := fun y => (d.setQueue op rest).calls_concat x y true
    have hflight' : (nextReq.send false (d.setQueue op rest) x).flight = none := hflight
    refine .of_idle hstack h.numbered ?_ ?_ ?_
    · intro y hy
      have hold := hknown y hy
      have hm := hmoved y
      rw [hcalls, hflight']
      change (d.setQueue op rest).waiting y + 0 = 0 ∧ _
      omega
    · intro y
      have hold := hsingle y
      have hm := hmoved y
      rw [hflight']
      change (d.setQueue op rest).waiting y + 0 ≤ 1
      omega
    · intro y hy
      have hold := htold y
      have hone := hsingle y
      have hm := hmoved y
      rw [hcalls] at hy
      rw [hflight']
      change (d.setQueue op rest).waiting y + 0 = 0
      omega

/-- A finished reply. -/
theorem Clean.finished {config : Device} {d t : MasterDevice γ} (h : Clean config d)
    (hstack : d.stack = []) {failed : Bool} (ht : d.finished failed = some t) :
    Clean config t := by
  obtain ⟨hknown, hsingle, htold⟩ := h.idle hstack
  unfold MasterDevice.finished at ht
  cases hflight : d.flight with
  | none => simp [hflight] at ht
  | some x =>
    simp only [hflight, Option.toList_some] at ht hknown hsingle htold
    split at ht
    · cases ht
      refine .of_idle hstack h.numbered ?_ ?_ ?_
      · intro y hy
        have hold := hknown y hy
        exact ⟨Nat.eq_zero_of_add_eq_zero_right hold.1, hold.2⟩
      · intro y
        exact Nat.le_trans (Nat.le_add_right _ _) (hsingle y)
      · intro y hy
        exact Nat.eq_zero_of_add_eq_zero_right (htold y hy)
    · cases ht
      have hcalls := fun y => d.calls_concat x y failed
      refine .of_idle hstack h.numbered ?_ ?_ ?_
      · intro y hy
        have hold := hknown y hy
        have hc := hcalls y
        change d.waiting y + 0 = 0 ∧ calls { d with called := d.called ++ [_] } y = 0
        omega
      · intro y
        exact Nat.le_trans (Nat.le_add_right _ _) (hsingle y)
      · intro y hy
        have hold := htold y
        have hone := hsingle y
        have hc := hcalls y
        change 0 < calls { d with called := d.called ++ [_] } y at hy
        change d.waiting y + 0 = 0
        omega

end MasterDevice

end Radapter.Modbus
