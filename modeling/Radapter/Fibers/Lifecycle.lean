import Radapter.Fibers.Pool

/-!
# The life of a fiber

A fiber goes from phase to phase: it is parked or flying until it is released, or until `Stop` gives
it up; then it is torn down when its turn comes. The sets of the pool, the flags of the fiber, the
fiber in control and the resumptions under way agree about the phase.

What the pool has to do with one fiber is its view of that fiber. Most steps change one view only.
-/

namespace Radapter.Fibers

open Library

/-! ## Fields -/

namespace FiberPool

variable (s : FiberPool) (f : FiberId) (fiber : Fiber)

/-- The fiber that is replaced is the new one. -/
@[simp] theorem setFiber_fibers_self : (s.setFiber f fiber).fibers f = fiber := if_pos rfl

/-- The other fibers stay. -/
@[simp] theorem setFiber_fibers_of_ne {g : FiberId} (hg : g ≠ f) :
    (s.setFiber f fiber).fibers g = s.fibers g := if_neg hg

/-- Of two replacements of a fiber the last counts. -/
@[simp] theorem setFiber_setFiber (fiber' : Fiber) :
    (s.setFiber f fiber).setFiber f fiber' = s.setFiber f fiber' := by
  simp only [setFiber]
  congr 1
  funext g
  split
  · rfl
  · rfl

/-- To replace a fiber by itself does nothing. -/
theorem setFiber_self : s.setFiber f (s.fibers f) = s := by
  simp only [setFiber]
  congr 1
  funext g
  split
  · next hg => rw [hg]
  · rfl

end FiberPool

/-! ## Views and phases -/

/-- What a pool has to do with one fiber. -/
@[ext] structure View where
  parked : Prop
  flying : Prop
  straggler : Prop
  current : Prop
  waiting : Prop
  released : Prop
  gaveUp : Prop
  fiber : Fiber

def FiberPool.view (s : FiberPool) (f : FiberId) : View where
  parked := f ∈ s.parked
  flying := f ∈ s.flying
  straggler := f ∈ s.stragglers
  current := s.Current = some f
  waiting := f ∈ s.signals ∨ f ∈ s.posted.map Prod.fst
  released := .released f ∈ s.log
  gaveUp := .gaveUp f ∈ s.log
  fiber := s.fibers f

/-- A fiber that can take a closure. -/
structure Fiber.Idle (fiber : Fiber) : Prop where
  pool : fiber.pool = true
  step : fiber.step = true
  unwind : fiber.unwind = false
  exc : fiber.exc = none
  frames : fiber.frames = []

/-- A fiber whose closure is under way. -/
structure Fiber.Flies (fiber : Fiber) : Prop where
  pool : fiber.pool = true
  step : fiber.step = true
  busy : fiber.busy = true
  unwind : fiber.unwind = false
  exc : fiber.exc = none
  frames : fiber.frames ≠ []

/-- The phases of a fiber. -/
inductive Phase (v : View) : Prop where
  | parked (hparked : v.parked) (hflying : ¬ v.flying) (hstraggler : ¬ v.straggler)
      (hcurrent : ¬ v.current) (hwaiting : ¬ v.waiting) (hreleased : ¬ v.released)
      (hgaveUp : ¬ v.gaveUp) (hfiber : v.fiber.Idle)
  | flying (hparked : ¬ v.parked) (hflying : v.flying) (hstraggler : ¬ v.straggler)
      (hwaiting : v.current → ¬ v.waiting) (hreleased : ¬ v.released) (hgaveUp : ¬ v.gaveUp)
      (hfiber : v.fiber.Flies)
  | released (hparked : ¬ v.parked) (hflying : ¬ v.flying) (hstraggler : ¬ v.straggler)
      (hcurrent : ¬ v.current) (hwaiting : ¬ v.waiting) (hreleased : v.released)
      (hgaveUp : ¬ v.gaveUp) (hframes : v.fiber.frames = [])
  | straggler (hparked : ¬ v.parked) (hflying : ¬ v.flying) (hstraggler : v.straggler)
      (hcurrent : ¬ v.current) (hreleased : ¬ v.released) (hgaveUp : v.gaveUp)
      (hframes : v.fiber.frames ≠ [])
  | unwinding (hparked : ¬ v.parked) (hflying : ¬ v.flying) (hstraggler : ¬ v.straggler)
      (hcurrent : v.current) (hreleased : ¬ v.released) (hgaveUp : v.gaveUp)
      (hpool : v.fiber.pool = false) (hunwind : v.fiber.unwind = true)
      (hframes : v.fiber.frames ≠ [])
  | tornDown (hparked : ¬ v.parked) (hflying : ¬ v.flying) (hstraggler : ¬ v.straggler)
      (hcurrent : ¬ v.current) (hreleased : ¬ v.released) (hgaveUp : v.gaveUp)
      (hpool : v.fiber.pool = false) (hframes : v.fiber.frames = [])

/-- A fiber that has not been created. -/
structure View.Blank (v : View) : Prop where
  parked : ¬ v.parked
  flying : ¬ v.flying
  straggler : ¬ v.straggler
  current : ¬ v.current
  waiting : ¬ v.waiting
  released : ¬ v.released
  gaveUp : ¬ v.gaveUp

/-- Every fiber is in a phase, or not created. -/
structure Views (s : FiberPool) : Prop where
  known : ∀ f < s.created, Phase (s.view f)
  fresh : ∀ f, s.created ≤ f → (s.view f).Blank

/-- What holds of a pool, also between two stragglers. -/
structure Kept (s : FiberPool) : Prop extends Views s where
  parked_nodup : s.parked.Nodup
  parked_le : s.parked.length ≤ s.pooledFibers
  stragglers_nodup : s.stragglers.Nodup
  posted_nodup : (s.posted.map Prod.fst).Nodup
  posted_signals : ∀ f ∈ s.posted.map Prod.fst, f ∉ s.signals

/-- What holds of a pool in every state. -/
structure Sound (s : FiberPool) : Prop extends Kept s where
  stopping : s.stragglers ≠ [] → ∃ f, s.Current = some f ∧ (s.fibers f).unwind = true

section Views

variable {s t : FiberPool} {f : FiberId}

/-- A fiber that the pool has to do with was created. -/
theorem Views.lt_created (hs : Views s) (h : ¬ (s.view f).Blank) : f < s.created := by
  by_contra hle
  exact h (hs.fresh f (Nat.le_of_not_lt hle))

/-- The fiber in control is in a phase. -/
theorem Views.phase_of_current (hs : Views s) (h : s.Current = some f) : Phase (s.view f) :=
  hs.known f (hs.lt_created (fun hblank => hblank.current h))

/-- The fiber in control is flying, or unwinding. -/
theorem Views.current (hs : Views s) (h : s.Current = some f) :
    (f ∈ s.flying ∧ (s.fibers f).Flies ∧ ¬ (s.view f).waiting) ∨
      ((s.fibers f).unwind = true ∧ .gaveUp f ∈ s.log ∧ f ∉ s.flying) := by
  cases hs.phase_of_current h with
  | parked _ _ _ hcurrent _ _ _ _ => exact absurd h hcurrent
  | flying _ hflying _ hwaiting _ _ hfiber => exact Or.inl ⟨hflying, hfiber, hwaiting h⟩
  | released _ _ _ hcurrent _ _ _ _ => exact absurd h hcurrent
  | straggler _ _ _ hcurrent _ _ _ => exact absurd h hcurrent
  | unwinding _ hflying _ _ _ hgaveUp _ hunwind _ => exact Or.inr ⟨hunwind, hgaveUp, hflying⟩
  | tornDown _ _ _ hcurrent _ _ _ _ => exact absurd h hcurrent

/-- A flying fiber. -/
theorem Views.flying (hs : Views s) (h : f ∈ s.flying) :
    f < s.created ∧ f ∉ s.parked ∧ f ∉ s.stragglers ∧ .released f ∉ s.log ∧ .gaveUp f ∉ s.log ∧
      (s.fibers f).Flies := by
  have hf := hs.lt_created (fun hblank => hblank.flying h)
  cases hs.known f hf with
  | parked _ hflying _ _ _ _ _ _ => exact absurd h hflying
  | flying hparked _ hstraggler _ hreleased hgaveUp hfiber =>
    exact ⟨hf, hparked, hstraggler, hreleased, hgaveUp, hfiber⟩
  | released _ hflying _ _ _ _ _ _ => exact absurd h hflying
  | straggler _ hflying _ _ _ _ _ => exact absurd h hflying
  | unwinding _ hflying _ _ _ _ _ _ _ => exact absurd h hflying
  | tornDown _ hflying _ _ _ _ _ _ => exact absurd h hflying

/-- A parked fiber. -/
theorem Views.parked (hs : Views s) (h : f ∈ s.parked) :
    f < s.created ∧ f ∉ s.flying ∧ f ∉ s.stragglers ∧ ¬ (s.view f).waiting ∧
      .released f ∉ s.log ∧ .gaveUp f ∉ s.log ∧ (s.fibers f).Idle := by
  have hf := hs.lt_created (fun hblank => hblank.parked h)
  cases hs.known f hf with
  | parked _ hflying hstraggler _ hwaiting hreleased hgaveUp hfiber =>
    exact ⟨hf, hflying, hstraggler, hwaiting, hreleased, hgaveUp, hfiber⟩
  | flying hparked _ _ _ _ _ _ => exact absurd h hparked
  | released hparked _ _ _ _ _ _ _ => exact absurd h hparked
  | straggler hparked _ _ _ _ _ _ => exact absurd h hparked
  | unwinding hparked _ _ _ _ _ _ _ _ => exact absurd h hparked
  | tornDown hparked _ _ _ _ _ _ _ => exact absurd h hparked

/-- One view changes. -/
theorem Views.update (hs : Views s) (hcreated : t.created = s.created) (hf : f < s.created)
    (hothers : ∀ g, g ≠ f → t.view g = s.view g) (hphase : Phase (t.view f)) : Views t := by
  refine ⟨?_, ?_⟩
  · intro g hg
    by_cases hgf : g = f
    · rw [hgf]
      exact hphase
    · rw [hothers g hgf]
      exact hs.known g (hcreated ▸ hg)
  · intro g hg
    rw [hcreated] at hg
    rw [hothers g (Nat.ne_of_gt (Nat.lt_of_lt_of_le hf hg))]
    exact hs.fresh g hg

/-- A fiber is created. -/
theorem Views.create (hs : Views s) (hcreated : t.created = s.created + 1)
    (hothers : ∀ g, g ≠ s.created → t.view g = s.view g) (hphase : Phase (t.view s.created)) :
    Views t := by
  refine ⟨?_, ?_⟩
  · intro g hg
    rw [hcreated] at hg
    rcases Nat.lt_succ_iff_lt_or_eq.mp hg with hlt | rfl
    · rw [hothers g (Nat.ne_of_lt hlt)]
      exact hs.known g hlt
    · exact hphase
  · intro g hg
    rw [hcreated] at hg
    rw [hothers g (Nat.ne_of_gt hg)]
    exact hs.fresh g (Nat.le_of_succ_le hg)

/-- No view changes. -/
theorem Views.congr (hs : Views s) (hcreated : t.created = s.created)
    (hviews : ∀ g, t.view g = s.view g) : Views t := by
  refine ⟨?_, ?_⟩
  · intro g hg
    rw [hviews]
    exact hs.known g (hcreated ▸ hg)
  · intro g hg
    rw [hviews]
    exact hs.fresh g (hcreated ▸ hg)

/-- To replace a fiber does not change what the pool has to do with another one. -/
theorem FiberPool.view_setFiber {g : FiberId} (hg : g ≠ f) (fiber : Fiber) :
    (s.setFiber f fiber).view g = s.view g := by
  simp only [FiberPool.view, FiberPool.setFiber_fibers_of_ne s f fiber hg]
  rfl

/-- The pool has to do with the new fiber what it had to do with the old one. -/
theorem FiberPool.view_setFiber_self (fiber : Fiber) :
    (s.setFiber f fiber).view f = { s.view f with fiber } := by
  simp only [FiberPool.view, FiberPool.setFiber_fibers_self]
  rfl

/-- Only the release and the giving up of a fiber are seen. -/
theorem FiberPool.view_note {event : Event} (hreleased : event ≠ .released f)
    (hgaveUp : event ≠ .gaveUp f) : (s.note event).view f = s.view f := by
  simp only [FiberPool.view, FiberPool.note, List.mem_append, List.mem_singleton, hreleased.symm,
    hgaveUp.symm, or_false]
  rfl

end Views

/-! ## Giving closures -/

section Closures

variable {s : FiberPool} {f : FiberId} {c : ClosureId}

/-- Nothing is torn down while the event loop has its turn. -/
theorem Sound.stragglers_nil (hs : Sound s) (hidle : s.stepping = none) : s.stragglers = [] := by
  by_contra hne
  obtain ⟨f, hf, -⟩ := hs.stopping hne
  simp [FiberPool.Current, hidle] at hf

/-- A closure is called on the fiber in control. -/
theorem Sound.inline (hs : Sound s) (hcurrent : s.Current = some f) : Sound (s.inline f c) := by
  rw [FiberPool.inline]
  split
  · -- The closure is dropped.
    refine ⟨⟨hs.toViews.congr rfl ?_, hs.parked_nodup, hs.parked_le, hs.stragglers_nodup,
      hs.posted_nodup, hs.posted_signals⟩, hs.stopping⟩
    intro g
    exact FiberPool.view_note (by simp) (by simp)
  · next hunwind =>
    rcases hs.current hcurrent with ⟨hflying, hfiber, hwaiting⟩ | ⟨hunwinds, -⟩
    · obtain ⟨hf, hparked, hstraggler, hreleased, hgaveUp, -⟩ := hs.flying hflying
      refine ⟨⟨hs.toViews.update rfl hf ?_ ?_, hs.parked_nodup, hs.parked_le, hs.stragglers_nodup,
        hs.posted_nodup, hs.posted_signals⟩, ?_⟩
      · intro g hg
        exact (FiberPool.view_note (by simp) (by simp)).trans (FiberPool.view_setFiber hg _)
      · rw [FiberPool.view_note (by simp) (by simp), FiberPool.view_setFiber_self]
        exact .flying hparked hflying hstraggler (fun _ => hwaiting) hreleased hgaveUp
          ⟨hfiber.pool, hfiber.step, hfiber.busy, hfiber.unwind, hfiber.exc, List.cons_ne_nil _ _⟩
      · intro hne
        obtain ⟨g, hg, hunwinds⟩ := hs.stopping hne
        rw [Option.some.inj (hg.symm.trans hcurrent)] at hunwinds
        exact absurd hunwinds hunwind
    · exact absurd hunwinds hunwind

/-- A launched fiber that has its coroutine enters the closure and takes control. -/
theorem launch_eq (hstep : (s.fibers f).step = true) :
    s.launch f c = ({ s with flying := insert f s.flying, stepping := some (f, false) }.setFiber f
      { s.fibers f with busy := true, closure := none, frames := [c] }).note (.executed c f) := by
  have hstep' : (({ s with flying := insert f s.flying }.setFiber f
      { s.fibers f with closure := some c }).fibers f).step = true := by simpa using hstep
  simp only [FiberPool.launch, hstep', if_true, FiberPool.enter]
  congr 1
  simp only [FiberPool.setFiber]
  congr 1
  funext g
  by_cases hg : g = f
  · simp [hg, hstep]
  · simp [hg]

/-- A fiber that was parked takes off. -/
theorem Sound.launch_parked (hs : Sound s) (hidle : s.stepping = none) {front : List FiberId}
    (hparked : s.parked = front ++ [f]) : Sound ({ s with parked := front }.launch f c) := by
  have hmem : f ∈ s.parked := by simp [hparked]
  have hnodup : (front ++ [f]).Nodup := hparked ▸ hs.parked_nodup
  have hfront : f ∉ front := by
    intro h
    exact (List.nodup_append.mp hnodup).2.2 f h f (by simp) rfl
  obtain ⟨hf, hflying, hstraggler, hwaiting, hreleased, hgaveUp, hfiber⟩ := hs.parked hmem
  have hcurrent (g : FiberId) : s.Current ≠ some g := by simp [FiberPool.Current, hidle]
  have hstep : (FiberPool.fibers { s with parked := front } f).step = true := hfiber.step
  rw [launch_eq hstep]
  refine ⟨⟨hs.toViews.update rfl hf ?_ ?_, ?_, ?_, hs.stragglers_nodup, hs.posted_nodup,
    hs.posted_signals⟩, ?_⟩
  · intro g hg
    rw [FiberPool.view_note (by simp) (by simp), FiberPool.view_setFiber hg]
    have hcurrent' : ¬ s.Current = some g := hcurrent g
    simp [FiberPool.view, FiberPool.Current, hidle, hparked, hg, hg.symm]
  · rw [FiberPool.view_note (by simp) (by simp), FiberPool.view_setFiber_self]
    exact .flying hfront (Finset.mem_insert_self f s.flying) hstraggler (fun _ => hwaiting)
      hreleased hgaveUp
      ⟨hfiber.pool, hfiber.step, rfl, hfiber.unwind, hfiber.exc, List.cons_ne_nil _ _⟩
  · exact (List.nodup_append.mp hnodup).1
  · have hle := hs.parked_le
    rw [hparked, List.length_append] at hle
    exact Nat.le_trans (Nat.le_add_right _ _) hle
  · intro hne
    exact absurd (hs.stragglers_nil hidle) hne

/-- A new fiber takes off. -/
theorem Sound.launch_new (hs : Sound s) (hidle : s.stepping = none) :
    Sound (FiberPool.launch { s.setFiber s.created .new with created := s.created + 1 }
      s.created c) := by
  have hblank := hs.fresh s.created (Nat.le_refl _)
  rw [launch_eq (by simp [Fiber.new])]
  refine ⟨⟨hs.toViews.create rfl ?_ ?_, hs.parked_nodup, hs.parked_le, hs.stragglers_nodup,
    hs.posted_nodup, hs.posted_signals⟩, ?_⟩
  · intro g hg
    rw [FiberPool.view_note (by simp) (by simp), FiberPool.view_setFiber hg]
    simp only [FiberPool.view, FiberPool.setFiber_fibers_of_ne s s.created _ hg, FiberPool.Current,
      hidle, Finset.mem_insert, hg]
    simp [hg.symm, FiberPool.setFiber]
  · rw [FiberPool.view_note (by simp) (by simp), FiberPool.view_setFiber_self]
    refine .flying hblank.parked (Finset.mem_insert_self _ _) hblank.straggler
      (fun _ => hblank.waiting) hblank.released hblank.gaveUp ?_
    simp only [FiberPool.setFiber_fibers_self]
    exact ⟨rfl, rfl, rfl, rfl, rfl, List.cons_ne_nil _ _⟩
  · intro hne
    exact absurd (hs.stragglers_nil hidle) hne

/-- A closure is given to the pool. -/
theorem Sound.run (hs : Sound s) : Sound s.Run := by
  have hgiven : Sound { s with given := s.given + 1 } :=
    ⟨⟨⟨hs.known, hs.fresh⟩, hs.parked_nodup, hs.parked_le, hs.stragglers_nodup, hs.posted_nodup,
      hs.posted_signals⟩, hs.stopping⟩
  rw [FiberPool.Run]
  dsimp only
  split
  · next f hcurrent => exact hgiven.inline hcurrent
  · next hnone =>
    have hidle : s.stepping = none := Option.map_eq_none_iff.mp hnone
    rw [FiberPool.takeFiber]
    cases hlast : s.parked.getLast? with
    | none => exact hgiven.launch_new hidle
    | some f =>
      dsimp only
      obtain ⟨front, hfront⟩ := List.getLast?_eq_some_iff.mp hlast
      have hdrop : s.parked.dropLast = front := by simp [hfront]
      rw [hdrop]
      exact hgiven.launch_parked hidle hfront

end Closures

/-! ## Waiting and leaving -/

section Control

variable {s : FiberPool} {f : FiberId} {resumed : Bool}

/-- A flying fiber that waits gives control back to the event loop. -/
theorem await_eq (hfiber : (s.fibers f).Flies) :
    s.await f resumed = { s with signals := insert f s.signals, stepping := none } := by
  simp only [FiberPool.await, FiberPool.yield, FiberPool.afterStep, FiberPool.rethrow,
    hfiber.unwind, hfiber.busy, hfiber.exc, Bool.false_eq_true, if_false, if_true]

/-- The fiber in control waits for a signal. -/
theorem Sound.await (hs : Sound s) (hstepping : s.stepping = some (f, resumed)) :
    Sound (s.await f resumed) := by
  have hcurrent : s.Current = some f := by simp [FiberPool.Current, hstepping]
  rcases hs.current hcurrent with ⟨hflying, hfiber, hwaiting⟩ | ⟨hunwinds, -⟩
  · obtain ⟨hf, hparked, hstraggler, hreleased, hgaveUp, -⟩ := hs.flying hflying
    rw [await_eq hfiber]
    refine ⟨⟨hs.toViews.update rfl hf ?_ ?_, hs.parked_nodup, hs.parked_le, hs.stragglers_nodup,
      hs.posted_nodup, ?_⟩, ?_⟩
    · intro g hg
      simp [FiberPool.view, FiberPool.Current, hstepping, hg, hg.symm]
    · exact .flying hparked hflying hstraggler (fun h => absurd h (by simp [FiberPool.view,
        FiberPool.Current])) hreleased hgaveUp hfiber
    · intro g hg hmem
      rcases Finset.mem_insert.mp hmem with rfl | hmem
      · exact hwaiting (Or.inr hg)
      · exact hs.posted_signals g hg hmem
    · intro hne
      obtain ⟨g, hg, hunwinds⟩ := hs.stopping hne
      rw [Option.some.inj (hg.symm.trans hcurrent), hfiber.unwind] at hunwinds
      exact absurd hunwinds Bool.false_ne_true
  · rw [FiberPool.await, if_pos hunwinds]
    exact hs

/-- What is noted when a fiber is returned. -/
def returnEvents (s : FiberPool) (f : FiberId) : List Event :=
  (if s.parked.length < s.pooledFibers then [] else [.released f]) ++
    if s.flying.erase f = ∅ then [.idle] else []

/-- A returned fiber is parked if there is room, and `idle` is emitted if it was the last one
flying. -/
theorem returnFiber_eq (s : FiberPool) (f : FiberId) :
    s.returnFiber f = { s with
      parked := if s.parked.length < s.pooledFibers then s.parked ++ [f] else s.parked
      flying := s.flying.erase f
      log := s.log ++ returnEvents s f } := by
  simp only [FiberPool.returnFiber, FiberPool.note, returnEvents]
  split
  · split
    · simp
    · simp
  · split
    · simp
    · simp

/-- What is noted of an exception. -/
def excEvents (resumed : Bool) : Option Exc → List Event
  | none => []
  | some e => [if resumed then .Error e.message else .thrown e]

/-- A pending exception is taken from the fiber and noted. -/
theorem rethrow_eq (s : FiberPool) (f : FiberId) (resumed : Bool) :
    s.rethrow f resumed = { s.setFiber f { s.fibers f with exc := none } with
      log := s.log ++ excEvents resumed (s.fibers f).exc } := by
  unfold FiberPool.rethrow
  split
  · next hexc =>
    have hself : s.setFiber f { s.fibers f with exc := none } = s := by
      rw [← hexc]
      exact s.setFiber_self f
    rw [hself, hexc, excEvents, List.append_nil]
  · next e hexc =>
    rw [hexc]
    rfl

/-- The closure of a flying fiber is over. -/
theorem finish_eq (hfiber : (s.fibers f).Flies) (e : Option Exc) :
    s.finish f resumed e = { s.setFiber f { s.fibers f with frames := [], busy := false } with
      parked := if s.parked.length < s.pooledFibers then s.parked ++ [f] else s.parked
      flying := s.flying.erase f
      stepping := none
      log := s.log ++ returnEvents s f ++ excEvents resumed ((s.fibers f).caught e) } := by
  have hfinish : s.finish f resumed e = FiberPool.rethrow (FiberPool.returnFiber { s.setFiber f
      { s.fibers f with frames := [], busy := false, exc := (s.fibers f).caught e } with
        stepping := none } f) f resumed := by
    simp only [FiberPool.finish, FiberPool.yield, FiberPool.afterStep, returnFiber_eq,
      FiberPool.setFiber_fibers_self, hfiber.unwind, Bool.false_eq_true, if_false]
  have hfree : s.setFiber f { s.fibers f with frames := [], busy := false } =
      s.setFiber f { s.fibers f with frames := [], busy := false, exc := none } := by
    rw [← hfiber.exc]
  rw [hfinish, rethrow_eq, returnFiber_eq, hfree, ← s.setFiber_setFiber f { s.fibers f with
    frames := [], busy := false, exc := (s.fibers f).caught e } { s.fibers f with
    frames := [], busy := false, exc := none }]
  simp only [FiberPool.setFiber_fibers_self]
  rfl

/-- Only the returned fiber can be released, where there is no room for it. -/
@[simp] theorem released_mem_returnEvents {g : FiberId} :
    .released g ∈ returnEvents s f ↔ g = f ∧ ¬ s.parked.length < s.pooledFibers := by
  rw [returnEvents]
  split
  · split
    · simp [*]
    · simp [*]
  · split
    · simp [*]
    · simp [*]

/-- The return of a fiber notes nothing but a release and `idle`. -/
theorem mem_returnEvents {event : Event} (h : event ∈ returnEvents s f) :
    event = .released f ∨ event = .idle := by
  rcases List.mem_append.mp h with h | h
  · split at h
    · simp at h
    · exact Or.inl (List.mem_singleton.mp h)
  · split at h
    · exact Or.inr (List.mem_singleton.mp h)
    · simp at h

/-- A return gives no fiber up. -/
@[simp] theorem gaveUp_mem_returnEvents {g : FiberId} : .gaveUp g ∉ returnEvents s f := by
  intro h
  rcases mem_returnEvents h with h | h
  · cases h
  · cases h

/-- Exceptions are no events of the life of a fiber. -/
theorem mem_excEvents {event : Event} {exc : Option Exc} (h : event ∈ excEvents resumed exc) :
    ∃ e : Exc, event = .Error e.message ∨ event = .thrown e := by
  cases exc with
  | none => simp [excEvents] at h
  | some e =>
    rw [excEvents, List.mem_singleton] at h
    cases resumed with
    | true => exact ⟨e, Or.inl h⟩
    | false => exact ⟨e, Or.inr h⟩

/-- An exception releases no fiber. -/
@[simp] theorem released_mem_excEvents {g : FiberId} {exc : Option Exc} :
    .released g ∉ excEvents resumed exc := by
  intro h
  obtain ⟨e, h | h⟩ := mem_excEvents h
  · cases h
  · cases h

/-- An exception gives no fiber up. -/
@[simp] theorem gaveUp_mem_excEvents {g : FiberId} {exc : Option Exc} :
    .gaveUp g ∉ excEvents resumed exc := by
  intro h
  obtain ⟨e, h | h⟩ := mem_excEvents h
  · cases h
  · cases h

/-- The closure of a flying fiber is over: the fiber is parked, or released. -/
theorem Sound.finish (hs : Sound s) (hstepping : s.stepping = some (f, resumed))
    (hflying : f ∈ s.flying) (e : Option Exc) : Sound (s.finish f resumed e) := by
  have hcurrent : s.Current = some f := by simp [FiberPool.Current, hstepping]
  obtain ⟨hf, hparked, hstraggler, hreleased, hgaveUp, hfiber⟩ := hs.flying hflying
  have hwaiting : ¬ (s.view f).waiting := by
    rcases hs.current hcurrent with ⟨-, -, h⟩ | ⟨-, -, h⟩
    · exact h
    · exact absurd hflying h
  rw [finish_eq hfiber]
  refine ⟨⟨hs.toViews.update rfl hf ?_ ?_, ?_, ?_, hs.stragglers_nodup, hs.posted_nodup,
    hs.posted_signals⟩, ?_⟩
  · intro g hg
    have hmem : g ∈ (if s.parked.length < s.pooledFibers then s.parked ++ [f] else s.parked) ↔
        g ∈ s.parked := by
      split
      · simp [hg]
      · exact Iff.rfl
    simp [FiberPool.view, FiberPool.Current, FiberPool.setFiber, hstepping, hmem, hg, hg.symm]
  · have hnone {g : FiberId} : ¬ Option.map Prod.fst (none : Option (FiberId × Bool)) = some g := by
      simp
    by_cases hroom : s.parked.length < s.pooledFibers
    · refine .parked ?_ (Finset.notMem_erase f s.flying) hstraggler hnone hwaiting ?_ ?_ ?_
      · simp [FiberPool.view, hroom]
      · simp [FiberPool.view, hroom, hreleased]
      · simp [FiberPool.view, hgaveUp]
      · simp only [FiberPool.view, FiberPool.setFiber_fibers_self]
        exact ⟨hfiber.pool, hfiber.step, hfiber.unwind, hfiber.exc, rfl⟩
    · refine .released ?_ (Finset.notMem_erase f s.flying) hstraggler hnone hwaiting ?_ ?_ ?_
      · simp [FiberPool.view, hroom, hparked]
      · simp [FiberPool.view, hroom]
      · simp [FiberPool.view, hgaveUp]
      · simp only [FiberPool.view, FiberPool.setFiber_fibers_self]
  · dsimp only
    split
    · exact List.nodup_append.mpr ⟨hs.parked_nodup, by simp, by
        intro g hg g' hg' heq
        rw [List.mem_singleton.mp hg'] at heq
        exact hparked (heq ▸ hg)⟩
    · exact hs.parked_nodup
  · dsimp only
    split
    · next hroom =>
      rw [List.length_append]
      exact hroom
    · exact hs.parked_le
  · intro hne
    obtain ⟨g, hg, hunwinds⟩ := hs.stopping hne
    rw [Option.some.inj (hg.symm.trans hcurrent), hfiber.unwind] at hunwinds
    exact absurd hunwinds Bool.false_ne_true

end Control

/-! ## Stopping -/

section Stopping

variable {s : FiberPool} {f : FiberId} {resumed : Bool}

/-- The next straggler is torn down. -/
theorem Kept.tearDown (hs : Kept { s with stepping := none }) : Sound s.tearDown := by
  unfold FiberPool.tearDown
  split
  · next hnil => exact ⟨hs, fun hne => absurd hnil hne⟩
  · next f rest hstragglers =>
    have hmem : f ∈ s.stragglers := by simp [hstragglers]
    have hnodup : (f :: rest).Nodup := hstragglers ▸ hs.stragglers_nodup
    obtain ⟨hrest, hnodup'⟩ := List.nodup_cons.mp hnodup
    have hf := hs.lt_created (fun hblank => hblank.straggler hmem)
    obtain ⟨hparked, hflying, hreleased, hgaveUp, hframes⟩ :
        f ∉ s.parked ∧ f ∉ s.flying ∧ .released f ∉ s.log ∧ .gaveUp f ∈ s.log ∧
          (s.fibers f).frames ≠ [] := by
      cases hs.known f hf with
      | parked _ _ h _ _ _ _ _ => exact absurd hmem h
      | flying _ _ h _ _ _ _ => exact absurd hmem h
      | released _ _ h _ _ _ _ _ => exact absurd hmem h
      | straggler hparked hflying _ _ hreleased hgaveUp hframes =>
        exact ⟨hparked, hflying, hreleased, hgaveUp, hframes⟩
      | unwinding _ _ h _ _ _ _ _ _ => exact absurd hmem h
      | tornDown _ _ h _ _ _ _ _ => exact absurd hmem h
    refine ⟨⟨hs.toViews.update rfl hf ?_ ?_, hs.parked_nodup, hs.parked_le, hnodup',
      hs.posted_nodup, hs.posted_signals⟩, ?_⟩
    · intro g hg
      simp [FiberPool.view, FiberPool.Current, FiberPool.setFiber, hstragglers, hg, hg.symm]
    · refine .unwinding hparked hflying hrest rfl hreleased hgaveUp ?_ ?_ ?_
      · simp [FiberPool.view]
      · simp [FiberPool.view]
      · simpa [FiberPool.view] using hframes
    · exact fun _ => ⟨f, rfl, by simp⟩

/-- The closure of an unwinding fiber is over, and with it the coroutine. -/
theorem finish_unwinding_eq (hunwind : (s.fibers f).unwind = true) (e : Option Exc) :
    s.finish f resumed e = FiberPool.tearDown (s.setFiber f { s.fibers f with
      step := false, busy := false, exc := (s.fibers f).caught e, frames := [] }) := by
  simp only [FiberPool.finish, FiberPool.setFiber_fibers_self, hunwind, if_true,
    FiberPool.setFiber_setFiber]

/-- A coroutine that is unwinding comes to its end, and its fiber is not parked. -/
theorem Sound.finish_unwinding (hs : Sound s) (hstepping : s.stepping = some (f, resumed))
    (hunwind : (s.fibers f).unwind = true) (e : Option Exc) : Sound (s.finish f resumed e) := by
  have hcurrent : s.Current = some f := by simp [FiberPool.Current, hstepping]
  have hf := hs.lt_created (fun hblank => hblank.current hcurrent)
  obtain ⟨hparked, hflying, hstraggler, hreleased, hgaveUp, hpool⟩ :
      f ∉ s.parked ∧ f ∉ s.flying ∧ f ∉ s.stragglers ∧ .released f ∉ s.log ∧ .gaveUp f ∈ s.log ∧
        (s.fibers f).pool = false := by
    cases hs.phase_of_current hcurrent with
    | parked _ _ _ h _ _ _ _ => exact absurd hcurrent h
    | flying _ _ _ _ _ _ hfiber => exact absurd (hfiber.unwind.symm.trans hunwind) (by simp)
    | released _ _ _ h _ _ _ _ => exact absurd hcurrent h
    | straggler _ _ _ h _ _ _ => exact absurd hcurrent h
    | unwinding hparked hflying hstraggler _ hreleased hgaveUp hpool _ _ =>
      exact ⟨hparked, hflying, hstraggler, hreleased, hgaveUp, hpool⟩
    | tornDown _ _ _ h _ _ _ _ => exact absurd hcurrent h
  rw [finish_unwinding_eq hunwind]
  refine Kept.tearDown ⟨hs.toViews.update rfl hf ?_ ?_, hs.parked_nodup, hs.parked_le,
    hs.stragglers_nodup, hs.posted_nodup, hs.posted_signals⟩
  · intro g hg
    simp [FiberPool.view, FiberPool.Current, FiberPool.setFiber, hstepping, hg, hg.symm]
  · refine .tornDown hparked hflying hstraggler ?_ hreleased hgaveUp ?_ ?_
    · simp [FiberPool.view, FiberPool.Current]
    · simpa [FiberPool.view] using hpool
    · simp [FiberPool.view]

/-- The innermost closure is left. -/
theorem Sound.leave (hs : Sound s) (hstepping : s.stepping = some (f, resumed)) (e : Option Exc) :
    Sound (s.leave f resumed e) := by
  have hcurrent : s.Current = some f := by simp [FiberPool.Current, hstepping]
  unfold FiberPool.leave
  split
  · exact hs
  · rcases hs.current hcurrent with ⟨hflying, -⟩ | ⟨hunwind, -⟩
    · exact hs.finish hstepping hflying e
    · exact hs.finish_unwinding hstepping hunwind e
  · next c frames hnested hframes =>
    have hne : frames ≠ [] := by
      rintro rfl
      exact hnested rfl
    have hf := hs.lt_created (fun hblank => hblank.current hcurrent)
    refine ⟨⟨hs.toViews.update rfl hf (fun g hg => FiberPool.view_setFiber hg _) ?_,
      hs.parked_nodup, hs.parked_le, hs.stragglers_nodup, hs.posted_nodup, hs.posted_signals⟩, ?_⟩
    · rw [FiberPool.view_setFiber_self]
      cases hs.phase_of_current hcurrent with
      | parked _ _ _ h _ _ _ _ => exact absurd hcurrent h
      | flying hparked hflying hstraggler hwaiting hreleased hgaveUp hfiber =>
        exact .flying hparked hflying hstraggler hwaiting hreleased hgaveUp
          ⟨hfiber.pool, hfiber.step, hfiber.busy, hfiber.unwind, hfiber.exc, hne⟩
      | released _ _ _ h _ _ _ _ => exact absurd hcurrent h
      | straggler _ _ _ h _ _ _ => exact absurd hcurrent h
      | unwinding hparked hflying hstraggler _ hreleased hgaveUp hpool hunwind _ =>
        exact .unwinding hparked hflying hstraggler hcurrent hreleased hgaveUp hpool hunwind hne
      | tornDown _ _ _ h _ _ _ _ => exact absurd hcurrent h
    · intro hstragglers
      obtain ⟨g, hg, hunwinds⟩ := hs.stopping hstragglers
      refine ⟨g, hg, ?_⟩
      rw [Option.some.inj (hg.symm.trans hcurrent)] at hunwinds ⊢
      simpa using hunwinds

/-- `Stop` gives up the flying fibers. -/
theorem Sound.stop (hs : Sound s) (hidle : s.stepping = none) {order : List FiberId}
    (hnodup : order.Nodup) (horder : order.toFinset = s.flying) : Sound (s.Stop order) := by
  have hmem (g : FiberId) : g ∈ order ↔ g ∈ s.flying := by rw [← horder, List.mem_toFinset]
  have hcurrent (g : FiberId) : ¬ s.Current = some g := by simp [FiberPool.Current, hidle]
  have hempty (g : FiberId) : g ∉ (∅ : Finset FiberId) := Finset.notMem_empty g
  have hreleased (g : FiberId) :
      .released g ∈ s.log ++ order.map Event.gaveUp ↔ .released g ∈ s.log := by simp
  have hgaveUp (g : FiberId) :
      .gaveUp g ∈ s.log ++ order.map Event.gaveUp ↔ .gaveUp g ∈ s.log ∨ g ∈ s.flying := by
    simp [hmem]
  have hnone (g : FiberId) :
      ¬ Option.map Prod.fst (none : Option (FiberId × Bool)) = some g := by simp
  have hnotGivenUp {g : FiberId} (hg : .gaveUp g ∉ s.log) (hg' : g ∉ s.flying) :
      .gaveUp g ∉ s.log ++ order.map Event.gaveUp := by
    rw [hgaveUp]
    exact fun h => h.elim hg hg'
  refine Kept.tearDown ⟨⟨?_, ?_⟩, hs.parked_nodup, hs.parked_le, hnodup, hs.posted_nodup,
    hs.posted_signals⟩
  · intro g hg
    cases hs.known g hg with
    | parked hparked hflying _ _ hwaiting hrel hgave hfiber =>
      exact .parked hparked (hempty g) (fun h => hflying ((hmem g).mp h)) (hnone g) hwaiting
        (fun h => hrel ((hreleased g).mp h)) (hnotGivenUp hgave hflying) hfiber
    | flying hparked hflying _ _ hrel _ hfiber =>
      exact .straggler hparked (hempty g) ((hmem g).mpr hflying) (hnone g)
        (fun h => hrel ((hreleased g).mp h)) ((hgaveUp g).mpr (Or.inr hflying)) hfiber.frames
    | released hparked hflying _ _ hwaiting hrel hgave hframes =>
      exact .released hparked (hempty g) (fun h => hflying ((hmem g).mp h)) (hnone g) hwaiting
        ((hreleased g).mpr hrel) (hnotGivenUp hgave hflying) hframes
    | straggler _ _ hstraggler _ _ _ _ =>
      have hstraggler' : g ∈ s.stragglers := hstraggler
      rw [hs.stragglers_nil hidle] at hstraggler'
      simp at hstraggler'
    | unwinding _ _ _ h _ _ _ _ _ => exact absurd h (hcurrent g)
    | tornDown hparked hflying _ _ hrel hgave hpool hframes =>
      exact .tornDown hparked (hempty g) (fun h => hflying ((hmem g).mp h)) (hnone g)
        (fun h => hrel ((hreleased g).mp h)) ((hgaveUp g).mpr (Or.inl hgave)) hpool hframes
  · intro g hg
    have hblank := hs.fresh g hg
    exact ⟨hblank.parked, hempty g, fun h => hblank.flying ((hmem g).mp h), hnone g,
      hblank.waiting, fun h => hblank.released ((hreleased g).mp h),
      hnotGivenUp hblank.gaveUp hblank.flying⟩

end Stopping

/-! ## The event loop -/

section Loop

variable {s t : FiberPool} {f : FiberId}

/-- A signal is settled. -/
theorem Sound.settle (hs : Sound s) {res : Option Exc} (h : s.settle f res = some t) : Sound t := by
  obtain ⟨hsignal, rfl⟩ := of_guarded h
  have hposted : f ∉ s.posted.map Prod.fst := fun h => hs.posted_signals f h hsignal
  have hmap : (s.posted ++ [(f, res)]).map Prod.fst = s.posted.map Prod.fst ++ [f] := by simp
  refine ⟨⟨hs.toViews.congr rfl ?_, hs.parked_nodup, hs.parked_le, hs.stragglers_nodup, ?_, ?_⟩,
    hs.stopping⟩
  · intro g
    have hwaiting : (g ∈ s.signals.erase f ∨ g ∈ (s.posted ++ [(f, res)]).map Prod.fst) ↔
        (g ∈ s.signals ∨ g ∈ s.posted.map Prod.fst) := by
      rw [hmap, List.mem_append, List.mem_singleton, Finset.mem_erase]
      by_cases hg : g = f
      · simp [hg, hsignal]
      · simp [hg]
    simp only [FiberPool.view, hwaiting]
    rfl
  · rw [hmap]
    refine List.nodup_append.mpr ⟨hs.posted_nodup, by simp, ?_⟩
    intro g hg g' hg' heq
    rw [List.mem_singleton.mp hg'] at heq
    exact hposted (heq ▸ hg)
  · intro g hg hmem
    rw [hmap, List.mem_append, List.mem_singleton] at hg
    rcases hg with hg | rfl
    · exact hs.posted_signals g hg (Finset.mem_of_mem_erase hmem)
    · exact Finset.notMem_erase g s.signals hmem

/-- A fiber in an `await` is resumed. -/
theorem resume_eq (hfiber : (s.fibers f).Flies) (exc : Option Exc) :
    s.resume f exc = { s.note (.resumed f) with stepping := some (f, true) } := by
  have hfree : s.setFiber f { s.fibers f with exc := none } = s := by
    rw [← hfiber.exc]
    exact s.setFiber_self f
  have hstep : ((s.setFiber f { s.fibers f with exc }).fibers f).step = true := by
    rw [FiberPool.setFiber_fibers_self]
    exact hfiber.step
  have hagain : (s.setFiber f { s.fibers f with exc }).setFiber f
      { (s.setFiber f { s.fibers f with exc }).fibers f with exc := none } = s := by
    rw [FiberPool.setFiber_fibers_self, FiberPool.setFiber_setFiber]
    exact hfree
  exact (if_pos hstep).trans (congrArg
    (fun u => { FiberPool.note u (.resumed f) with stepping := some (f, true) }) hagain)

/-- While the event loop has its turn, a fiber whose resumption is under way is flying, or was torn
down: then it has no pool, and the resumption does not matter. -/
theorem Sound.waiting (hs : Sound s) (hidle : s.stepping = none) (hwaiting : (s.view f).waiting) :
    f ∈ s.flying ∨
      (∀ waiting, Phase { s.view f with waiting }) ∧ (s.fibers f).pool = false := by
  have hphase := hs.known f (hs.lt_created (fun hblank => hblank.waiting hwaiting))
  cases hphase with
  | parked _ _ _ _ h _ _ _ => exact absurd hwaiting h
  | flying _ hflying _ _ _ _ _ => exact Or.inl hflying
  | released _ _ _ _ h _ _ _ => exact absurd hwaiting h
  | straggler _ _ h _ _ _ _ =>
    have hstraggler : f ∈ s.stragglers := h
    rw [hs.stragglers_nil hidle] at hstraggler
    simp at hstraggler
  | unwinding _ _ _ h _ _ _ _ _ =>
    have hcurrent : s.Current = some f := h
    simp [FiberPool.Current, hidle] at hcurrent
  | tornDown hparked hflying hstraggler hcurrent hreleased hgaveUp hpool hframes =>
    exact Or.inr ⟨fun _ => .tornDown hparked hflying hstraggler hcurrent hreleased hgaveUp hpool
      hframes, hpool⟩

/-- A resumption has its turn. -/
theorem Sound.dispatch (hs : Sound s) (hidle : s.stepping = none) (h : s.dispatch = some t) :
    Sound t := by
  unfold FiberPool.dispatch at h
  split at h
  · simp at h
  · next f res rest hposted =>
    obtain rfl := Option.some.inj h
    have hnodup := hs.posted_nodup
    rw [hposted, List.map_cons, List.nodup_cons] at hnodup
    have hsignals : ∀ g ∈ rest.map Prod.fst, g ∉ s.signals :=
      fun g hg => hs.posted_signals g (by simp [hposted, hg])
    have hwaiting : (s.view f).waiting := Or.inr (by simp [hposted])
    have hf := hs.lt_created (fun hblank => hblank.waiting hwaiting)
    have hothers (g : FiberId) (hg : g ≠ f) :
        FiberPool.view { s with posted := rest } g = s.view g := by
      simp [FiberPool.view, FiberPool.Current, hposted, hg]
    rcases hs.waiting hidle hwaiting with hflying | ⟨hphase, hpool⟩
    · obtain ⟨-, hparked, hstraggler, hreleased, hgaveUp, hfiber⟩ := hs.flying hflying
      have hfiber' : (FiberPool.fibers { s with posted := rest } f).Flies := hfiber
      rw [if_pos hfiber'.pool, resume_eq hfiber']
      refine ⟨⟨hs.toViews.update rfl hf ?_ ?_, hs.parked_nodup, hs.parked_le, hs.stragglers_nodup,
        hnodup.2, hsignals⟩, fun hne => absurd (hs.stragglers_nil hidle) hne⟩
      · intro g hg
        rw [← hothers g hg]
        simp [FiberPool.view, FiberPool.note, FiberPool.Current, hidle, hg.symm]
      · refine .flying hparked hflying hstraggler ?_ ?_ ?_ hfiber
        · rintro - (hsignal | hrest)
          · exact hs.posted_signals f (by simp [hposted]) hsignal
          · exact hnodup.1 hrest
        · simpa [FiberPool.view, FiberPool.note] using hreleased
        · simpa [FiberPool.view, FiberPool.note] using hgaveUp
    · rw [if_neg (by simp [hpool])]
      exact ⟨⟨hs.toViews.update rfl hf hothers (hphase _), hs.parked_nodup, hs.parked_le,
        hs.stragglers_nodup, hnodup.2, hsignals⟩, hs.stopping⟩

end Loop

/-! ## Runs -/

/-- A new pool has no fibers. -/
theorem sound_new (pooledFibers : ℕ) : Sound (.new pooledFibers) := by
  refine ⟨⟨⟨?_, ?_⟩, ?_, ?_, ?_, ?_, ?_⟩, ?_⟩
  · intro f hf
    exact absurd hf (Nat.not_lt_zero f)
  · intro f _
    refine ⟨?_, ?_, ?_, ?_, ?_, ?_, ?_⟩ <;> simp [FiberPool.view, FiberPool.new, FiberPool.Current]
  · exact List.nodup_nil
  · exact Nat.zero_le _
  · exact List.nodup_nil
  · exact List.nodup_nil
  · simp [FiberPool.new]
  · simp [FiberPool.new]

/-- Every step keeps the pool sound. -/
theorem Sound.step {s t : FiberPool} (hs : Sound s) {a : Action} (h : step s a = some t) :
    Sound t := by
  cases a with
  | Run =>
    obtain rfl := Option.some.inj h
    exact hs.run
  | await =>
    obtain ⟨⟨f, resumed⟩, hstepping, rfl⟩ := Option.map_eq_some_iff.mp h
    exact hs.await hstepping
  | leave e =>
    obtain ⟨⟨f, resumed⟩, hstepping, rfl⟩ := Option.map_eq_some_iff.mp h
    exact hs.leave hstepping e
  | settle f res => exact hs.settle h
  | dispatch =>
    obtain ⟨hidle, ht⟩ := Option.ite_none_right_eq_some.mp h
    exact hs.dispatch hidle ht
  | Stop order =>
    obtain ⟨⟨hidle, hnodup, horder⟩, rfl⟩ := of_guarded h
    exact hs.stop hidle hnodup horder

end Radapter.Fibers
