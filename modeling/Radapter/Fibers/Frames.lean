import Radapter.Fibers.Law

/-!
# The closures of a fiber

Closures leave a fiber in the opposite order of that in which they came, and only the fiber in
control is left by one. After a `Stop` no fiber is flying until the event loop has a turn.
-/

namespace Radapter.Fibers

open Library

section Frames

variable {s t : FiberPool} {f : FiberId}

/-- The closures that are under way on a fiber. -/
def FiberPool.depth (s : FiberPool) (f : FiberId) : ℕ := (s.fibers f).frames.length

/-- The fiber in control was created, and closures are under way on it. -/
theorem Sound.depth_current (hs : Sound s) (h : s.Current = some f) :
    f < s.created ∧ 0 < s.depth f := by
  refine ⟨hs.lt_created (fun hblank => hblank.current h), List.length_pos_iff.mpr ?_⟩
  cases hs.phase_of_current h with
  | parked _ _ _ hcurrent _ _ _ _ => exact absurd h hcurrent
  | flying _ _ _ _ _ _ hfiber => exact hfiber.frames
  | released _ _ _ hcurrent _ _ _ _ => exact absurd h hcurrent
  | straggler _ _ _ hcurrent _ _ _ => exact absurd h hcurrent
  | unwinding _ _ _ _ _ _ _ _ hframes => exact hframes
  | tornDown _ _ _ hcurrent _ _ _ _ => exact absurd h hcurrent

/-- A closure that is given to the pool leaves the other ones under way. -/
theorem Sound.depth_run (hs : Sound s) (hf : f < s.created) (hdepth : 0 < s.depth f) :
    f < s.Run.created ∧ s.depth f ≤ s.Run.depth f := by
  unfold FiberPool.Run
  dsimp only
  split
  · next g _ =>
    rw [FiberPool.inline]
    split
    · exact ⟨hf, Nat.le_refl _⟩
    · refine ⟨hf, ?_⟩
      by_cases hg : f = g
      · subst hg
        simp [FiberPool.depth, FiberPool.note]
      · simp [FiberPool.depth, FiberPool.note, hg]
  · rw [FiberPool.takeFiber]
    cases hlast : s.parked.getLast? with
    | none =>
      have hne : f ≠ s.created := Nat.ne_of_lt hf
      dsimp only
      rw [launch_eq (by simp [Fiber.new])]
      exact ⟨Nat.lt_succ_of_lt hf, by simp [FiberPool.depth, FiberPool.note, hne]⟩
    | some g =>
      obtain ⟨-, -, -, -, -, -, hfiber⟩ := hs.parked (List.mem_of_getLast? hlast)
      have hne : f ≠ g := by
        rintro rfl
        rw [FiberPool.depth, hfiber.frames] at hdepth
        exact Nat.lt_irrefl 0 hdepth
      dsimp only
      rw [launch_eq (s := { s with given := s.given + 1, parked := s.parked.dropLast }) hfiber.step]
      exact ⟨hf, by simp [FiberPool.depth, FiberPool.note, hne]⟩

/-- Tearing down creates no fiber. -/
theorem created_tearDown (s : FiberPool) : s.tearDown.created = s.created := by
  unfold FiberPool.tearDown
  split
  · rfl
  · rfl

/-- One closure leaves the fiber in control, and none leaves another fiber. -/
theorem Sound.depth_leave (hs : Sound s) {g : FiberId} {resumed : Bool}
    (hstepping : s.stepping = some (g, resumed)) (e : Option Exc) :
    (s.leave g resumed e).created = s.created ∧
      (s.leave g resumed e).depth f = if f = g then s.depth f - 1 else s.depth f := by
  have hcurrent : s.Current = some g := by simp [FiberPool.Current, hstepping]
  unfold FiberPool.leave
  split
  · next hframes =>
    have hpos := (hs.depth_current hcurrent).2
    rw [FiberPool.depth, hframes] at hpos
    exact absurd hpos (Nat.lt_irrefl 0)
  · next c hframes =>
    rcases hs.current hcurrent with ⟨-, hfiber, -⟩ | ⟨hunwind, -, -⟩
    · rw [finish_eq hfiber]
      refine ⟨rfl, ?_⟩
      by_cases hf : f = g
      · simp [FiberPool.depth, hf, hframes]
      · simp [FiberPool.depth, hf]
    · rw [finish_unwinding_eq hunwind, created_tearDown]
      obtain ⟨-, -, hsame⟩ := tearDown_spec (s.setFiber g { s.fibers g with
          step := false, busy := false, exc := (s.fibers g).caught e, frames := [] })
      refine ⟨rfl, ?_⟩
      rw [FiberPool.depth, hsame]
      by_cases hf : f = g
      · simp [FiberPool.depth, hf, hframes]
      · simp [FiberPool.depth, hf]
  · next c frames _ hframes =>
    refine ⟨rfl, ?_⟩
    by_cases hf : f = g
    · simp [FiberPool.depth, hf, hframes]
    · simp [FiberPool.depth, hf]

/-- A resumption leaves the closures under way as they are. -/
theorem Sound.depth_dispatch (hs : Sound s) (hidle : s.stepping = none) (h : s.dispatch = some t) :
    t.created = s.created ∧ ∀ g, t.depth g = s.depth g := by
  unfold FiberPool.dispatch at h
  split at h
  · simp at h
  · next g res rest hposted =>
    obtain rfl := Option.some.inj h
    have hwaiting : (s.view g).waiting := Or.inr (by simp [hposted])
    rcases hs.waiting hidle hwaiting with hflying | ⟨-, hpool⟩
    · obtain ⟨-, -, -, -, -, hfiber⟩ := hs.flying hflying
      have hfiber' : (FiberPool.fibers { s with posted := rest } g).Flies := hfiber
      rw [if_pos hfiber'.pool, resume_eq hfiber']
      exact ⟨rfl, fun _ => rfl⟩
    · rw [if_neg (by simp [hpool])]
      exact ⟨rfl, fun _ => rfl⟩

/-- No step takes a closure off a fiber, except that one leaves the fiber in control. -/
theorem Sound.depth_step (hs : Sound s) {a : Action} (h : Fibers.step s a = some t)
    (hf : f < s.created) (hdepth : 0 < s.depth f) :
    f < t.created ∧ (s.depth f ≤ t.depth f ∨
      (∃ e, a = .leave e) ∧ s.Current = some f ∧ s.depth f ≤ t.depth f + 1) := by
  cases a with
  | Run =>
    obtain rfl := Option.some.inj h
    obtain ⟨hcreated, hle⟩ := hs.depth_run hf hdepth
    exact ⟨hcreated, Or.inl hle⟩
  | await =>
    obtain ⟨⟨g, resumed⟩, hstepping, rfl⟩ := Option.map_eq_some_iff.mp h
    have hcurrent : s.Current = some g := by simp [FiberPool.Current, hstepping]
    dsimp only
    rcases hs.current hcurrent with ⟨-, hfiber, -⟩ | ⟨hunwind, -⟩
    · rw [await_eq hfiber]
      exact ⟨hf, Or.inl (Nat.le_refl _)⟩
    · rw [FiberPool.await, if_pos hunwind]
      exact ⟨hf, Or.inl (Nat.le_refl _)⟩
  | leave e =>
    obtain ⟨⟨g, resumed⟩, hstepping, rfl⟩ := Option.map_eq_some_iff.mp h
    have hcurrent : s.Current = some g := by simp [FiberPool.Current, hstepping]
    obtain ⟨hcreated, hdepth⟩ := hs.depth_leave (f := f) hstepping e
    refine ⟨hcreated ▸ hf, ?_⟩
    dsimp only
    rw [hdepth]
    split
    · next hg =>
      subst hg
      exact Or.inr ⟨⟨e, rfl⟩, hcurrent, by omega⟩
    · exact Or.inl (Nat.le_refl _)
  | settle g res =>
    obtain ⟨-, rfl⟩ := of_guarded h
    exact ⟨hf, Or.inl (Nat.le_refl _)⟩
  | dispatch =>
    obtain ⟨hidle, ht⟩ := Option.ite_none_right_eq_some.mp h
    obtain ⟨hcreated, hsame⟩ := hs.depth_dispatch hidle ht
    exact ⟨hcreated ▸ hf, Or.inl (hsame f).ge⟩
  | Stop order =>
    obtain ⟨-, rfl⟩ := of_guarded h
    obtain ⟨-, -, hframes⟩ := tearDown_spec { s with
      flying := ∅, stragglers := order, log := s.log ++ order.map Event.gaveUp }
    rw [FiberPool.Stop, created_tearDown, FiberPool.depth, FiberPool.depth, hframes]
    exact ⟨hf, Or.inl (Nat.le_refl _)⟩

end Frames

/-! ## After a stop -/

section Gone

variable {s t : FiberPool}

/-- The pool was stopped and the event loop had no turn since: no fiber is flying, and the fiber in
control is unwinding. -/
structure FiberPool.Gone (s : FiberPool) : Prop where
  flying : s.flying = ∅
  unwind : ∀ f, s.Current = some f → (s.fibers f).unwind = true

/-- When the loop over the stragglers is over, no fiber is flying. -/
theorem gone_tearDown (hflying : s.flying = ∅) : s.tearDown.Gone := by
  unfold FiberPool.tearDown
  split
  · exact ⟨hflying, by simp [FiberPool.Current]⟩
  · next f rest _ =>
    refine ⟨hflying, fun g hg => ?_⟩
    obtain rfl : f = g := by simpa [FiberPool.Current] using hg
    simp

/-- So it is after `Stop`, whatever the order of the stragglers. -/
theorem gone_stop {order : List FiberId} (h : Fibers.step s (.Stop order) = some t) : t.Gone := by
  obtain ⟨-, rfl⟩ := of_guarded h
  exact gone_tearDown rfl

/-- Once the pool is stopped nothing gets a fiber to fly, as long as closures are only given by the
stragglers. -/
theorem FiberPool.Gone.step (hgone : s.Gone) {a : Action}
    (h : Fibers.step s a = some t) (hrun : a = .Run → s.stepping ≠ none)
    (hdispatch : a ≠ .dispatch) : t.Gone := by
  cases a with
  | Run =>
    obtain rfl := Option.some.inj h
    cases hstepping : s.stepping with
    | none => exact absurd hstepping (hrun rfl)
    | some p =>
      have hcurrent : s.Current = some p.1 := by simp [FiberPool.Current, hstepping]
      have hunwind := hgone.unwind p.1 hcurrent
      have hdropped :
          s.Run = { s with given := s.given + 1, log := s.log ++ [.dropped s.given] } := by
        have hcurrent' : FiberPool.Current { s with given := s.given + 1 } = some p.1 := hcurrent
        simp only [FiberPool.Run, hcurrent', FiberPool.inline, hunwind, if_true, FiberPool.note]
      rw [hdropped]
      exact ⟨hgone.flying, hgone.unwind⟩
  | await =>
    obtain ⟨⟨g, resumed⟩, hstepping, rfl⟩ := Option.map_eq_some_iff.mp h
    have hcurrent : s.Current = some g := by simp [FiberPool.Current, hstepping]
    dsimp only
    rw [FiberPool.await, if_pos (hgone.unwind g hcurrent)]
    exact hgone
  | leave e =>
    obtain ⟨⟨g, resumed⟩, hstepping, rfl⟩ := Option.map_eq_some_iff.mp h
    have hcurrent : s.Current = some g := by simp [FiberPool.Current, hstepping]
    have hunwind := hgone.unwind g hcurrent
    dsimp only
    unfold FiberPool.leave
    split
    · exact hgone
    · rw [finish_unwinding_eq hunwind]
      exact gone_tearDown hgone.flying
    · refine ⟨hgone.flying, fun f hf => ?_⟩
      obtain rfl := Option.some.inj (hcurrent.symm.trans hf)
      simpa using hunwind
  | settle g res =>
    obtain ⟨-, rfl⟩ := of_guarded h
    exact ⟨hgone.flying, hgone.unwind⟩
  | dispatch => exact absurd rfl hdispatch
  | Stop order => exact gone_stop h

/-- When all stragglers are torn down no closure is under way on any fiber. -/
theorem Sound.frames_of_gone (hs : Sound s) (hgone : s.Gone) (hstepping : s.stepping = none)
    {f : FiberId} (hf : f < s.created) : (s.fibers f).frames = [] := by
  cases hs.known f hf with
  | parked _ _ _ _ _ _ _ hfiber => exact hfiber.frames
  | flying _ hflying _ _ _ _ _ =>
    have hflying : f ∈ s.flying := hflying
    simp [hgone.flying] at hflying
  | released _ _ _ _ _ _ _ hframes => exact hframes
  | straggler _ _ hstraggler _ _ _ _ =>
    have hstraggler : f ∈ s.stragglers := hstraggler
    simp [hs.stragglers_nil hstepping] at hstraggler
  | unwinding _ _ _ hcurrent _ _ _ _ _ =>
    have hcurrent : s.Current = some f := hcurrent
    simp [FiberPool.Current, hstepping] at hcurrent
  | tornDown _ _ _ _ _ _ _ hframes => exact hframes

end Gone

end Radapter.Fibers
