import Mathlib.Data.List.Range
import Radapter.Fibers.Lifecycle

/-!
# What the fiber pool guarantees

Every fiber is parked, flying or released; every closure is run once, or dropped because the fiber
in control is unwinding; and what `Stop` gave up is not touched again, except that it is torn down.

A fiber that was given up is not flying while it is torn down, although its closure is not over: it
may catch the shutdown and go on for a while.
-/

namespace Radapter.Fibers

open Library

/-! ## The guarantees -/

/-- A fiber that the pool let go: there was no room for it, or `Stop` gave it up. -/
def FiberPool.Released (s : FiberPool) (f : FiberId) : Prop :=
  .released f ∈ s.log ∨ .gaveUp f ∈ s.log

/-- The event is an execution of the closure. -/
def Event.executes (c : ClosureId) : Event → Bool
  | .executed c' _ => c' == c
  | _ => false

/-- How often a closure was executed. -/
def FiberPool.executions (s : FiberPool) (c : ClosureId) : ℕ := s.log.countP (Event.executes c)

/-- How often `idle` was emitted. -/
def FiberPool.idles (s : FiberPool) : ℕ := s.log.count .idle

/-- The fiber in control is unwinding. -/
def FiberPool.Unwinds (s : FiberPool) : Prop :=
  ∃ f, s.Current = some f ∧ (s.fibers f).unwind = true

/-- Exactly one of three. -/
def OneOf (p q r : Prop) : Prop := (p ∧ ¬ q ∧ ¬ r) ∨ (¬ p ∧ q ∧ ¬ r) ∨ (¬ p ∧ ¬ q ∧ r)

/-- The guarantees about a state. The closure of a fiber has started and is not over while there are
frames. -/
structure Lawful (s : FiberPool) : Prop where
  place : ∀ f < s.created, OneOf (f ∈ s.parked) (f ∈ s.flying) (s.Released f)
  flies : ∀ f < s.created, f ∈ s.flying ↔ (s.fibers f).frames ≠ [] ∧ .gaveUp f ∉ s.log
  flies_outside_stop : ¬ s.Unwinds → ∀ f < s.created, f ∈ s.flying ↔ (s.fibers f).frames ≠ []
  parked_once : s.parked.Nodup
  parked_le : s.parked.length ≤ s.pooledFibers
  once : ∀ c < s.given, (s.executions c = 1 ∧ .dropped c ∉ s.log) ∨
    (s.executions c = 0 ∧ .dropped c ∈ s.log)
  final : ∀ before f after, s.log = before ++ .gaveUp f :: after →
    .resumed f ∉ after ∧ ∀ c, .executed c f ∉ after

/-- The guarantees about a step: a closure is dropped if and only if it is given while the fiber in
control is unwinding, and `idle` is emitted if and only if a flying fiber whose closure comes to its
end leaves no other flying. -/
structure LawfulStep (s : FiberPool) (a : Action) (t : FiberPool) : Prop where
  given : t.given = if a = .Run then s.given + 1 else s.given
  drops : a = .Run → (.dropped s.given ∈ t.log ↔ s.Unwinds)
  emits : t.idles = s.idles + 1 ∧ (∃ f ∈ s.flying, (t.fibers f).frames = []) ∧ t.flying = ∅ ∨
    t.idles = s.idles ∧ ¬ ((∃ f ∈ s.flying, (t.fibers f).frames = []) ∧ t.flying = ∅)

/-! ## What a step can do -/

/-- What a step can do to the log and to the closures under way. -/
inductive Move (s t : FiberPool) : Action → Prop where
  | drop (hunwinds : s.Unwinds) (hlog : t.log = s.log ++ [.dropped s.given])
      (hgiven : t.given = s.given + 1) (hframes : ∀ g ∈ s.flying, (t.fibers g).frames ≠ []) :
      Move s t .Run
  | execute (f : FiberId) (hunwinds : ¬ s.Unwinds) (hgaveUp : .gaveUp f ∉ s.log)
      (hlog : t.log = s.log ++ [.executed s.given f]) (hgiven : t.given = s.given + 1)
      (hframes : ∀ g ∈ s.flying, (t.fibers g).frames ≠ []) : Move s t .Run
  | finish (e : Option Exc) (f : FiberId) (resumed : Bool) (exc : Option Exc)
      (hmem : f ∈ s.flying) (hframes : (t.fibers f).frames = [])
      (hflying : t.flying = s.flying.erase f)
      (hlog : t.log = s.log ++ returnEvents s f ++ excEvents resumed exc)
      (hgiven : t.given = s.given) : Move s t (.leave e)
  | resume (f : FiberId) (hgaveUp : .gaveUp f ∉ s.log) (hlog : t.log = s.log ++ [.resumed f])
      (hgiven : t.given = s.given) (hframes : ∀ g ∈ s.flying, (t.fibers g).frames ≠ []) :
      Move s t .dispatch
  | stop (order : List FiberId) (hlog : t.log = s.log ++ order.map Event.gaveUp)
      (hgiven : t.given = s.given) (hframes : ∀ g ∈ s.flying, (t.fibers g).frames ≠ []) :
      Move s t (.Stop order)
  | still {a : Action} (ha : a ≠ .Run) (hlog : t.log = s.log) (hgiven : t.given = s.given)
      (hframes : ∀ g ∈ s.flying, (t.fibers g).frames ≠ []) : Move s t a

section Moves

variable {s t : FiberPool} {f : FiberId} {resumed : Bool}

/-- Tearing down the next straggler is noted nowhere, and its closure is still under way. -/
theorem tearDown_spec (s : FiberPool) : s.tearDown.log = s.log ∧ s.tearDown.given = s.given ∧
    ∀ g, (s.tearDown.fibers g).frames = (s.fibers g).frames := by
  unfold FiberPool.tearDown
  split
  · exact ⟨rfl, rfl, fun _ => rfl⟩
  · next f rest _ =>
    refine ⟨rfl, rfl, fun g => ?_⟩
    by_cases hg : g = f
    · simp [hg]
    · simp [hg]

/-- A flying fiber has a closure under way. -/
theorem Sound.frames (hs : Sound s) {g : FiberId} (hg : g ∈ s.flying) :
    (s.fibers g).frames ≠ [] := by
  obtain ⟨-, -, -, -, -, hfiber⟩ := hs.flying hg
  exact hfiber.frames

/-- A closure is started on a fiber of the pool. -/
theorem launch_spec {c : ClosureId} (hstep : (s.fibers f).step = true) :
    (s.launch f c).log = s.log ++ [.executed c f] ∧ (s.launch f c).given = s.given ∧
      ∀ g, (s.fibers g).frames ≠ [] → ((s.launch f c).fibers g).frames ≠ [] := by
  rw [launch_eq hstep]
  refine ⟨rfl, rfl, fun g hframes => ?_⟩
  by_cases hg : g = f
  · simp [FiberPool.note, hg]
  · simpa [FiberPool.note, FiberPool.setFiber, hg] using hframes

/-- A closure is given to the pool. -/
theorem Sound.move_run (hs : Sound s) : Move s s.Run .Run := by
  unfold FiberPool.Run
  dsimp only
  split
  · next f hcurrent =>
    have hf : s.Current = some f := hcurrent
    rw [FiberPool.inline]
    split
    · next hunwind => exact .drop ⟨f, hf, hunwind⟩ rfl rfl (fun g hg => hs.frames hg)
    · next hunwind =>
      have hunwinds : ¬ s.Unwinds := by
        rintro ⟨g, hg, hunwinds⟩
        rw [Option.some.inj (hg.symm.trans hf)] at hunwinds
        exact hunwind hunwinds
      rcases hs.current hf with ⟨hflying, -⟩ | ⟨hunwinds', -⟩
      · obtain ⟨-, -, -, -, hgaveUp, -⟩ := hs.flying hflying
        refine .execute f hunwinds hgaveUp rfl rfl (fun g hg => ?_)
        by_cases hgf : g = f
        · simp [FiberPool.note, hgf]
        · simpa [FiberPool.note, FiberPool.setFiber, hgf] using hs.frames hg
      · exact absurd hunwinds' hunwind
  · next hnone =>
    have hcurrent : s.Current = none := hnone
    have hunwinds : ¬ s.Unwinds := by
      rintro ⟨g, hg, -⟩
      rw [hcurrent] at hg
      simp at hg
    rw [FiberPool.takeFiber]
    cases hlast : s.parked.getLast? with
    | none =>
      obtain ⟨hlog, hgiven, hframes⟩ := launch_spec (s := { s.setFiber s.created .new with
        created := s.created + 1, given := s.given + 1 }) (f := s.created) (c := s.given)
        (by simp [Fiber.new])
      refine .execute s.created hunwinds (hs.fresh s.created (Nat.le_refl _)).gaveUp hlog hgiven ?_
      intro g hg
      apply hframes
      obtain ⟨hlt, -, -, -, -, -⟩ := hs.flying hg
      simpa [FiberPool.setFiber, Nat.ne_of_lt hlt] using hs.frames hg
    | some f =>
      obtain ⟨-, -, -, -, -, hgaveUp, hfiber⟩ := hs.parked (List.mem_of_getLast? hlast)
      obtain ⟨hlog, hgiven, hframes⟩ := launch_spec (s := { s with
        given := s.given + 1, parked := s.parked.dropLast }) (f := f) (c := s.given) hfiber.step
      exact .execute f hunwinds hgaveUp hlog hgiven (fun g hg => hframes g (hs.frames hg))

/-- The innermost closure is left. -/
theorem Sound.move_leave (hs : Sound s) (hstepping : s.stepping = some (f, resumed))
    (e : Option Exc) : Move s (s.leave f resumed e) (.leave e) := by
  have hcurrent : s.Current = some f := by simp [FiberPool.Current, hstepping]
  unfold FiberPool.leave
  split
  · exact .still (by simp) rfl rfl (fun g hg => hs.frames hg)
  · rcases hs.current hcurrent with ⟨hflying, hfiber, -⟩ | ⟨hunwind, -, hnot⟩
    · rw [finish_eq hfiber]
      refine .finish e f resumed _ hflying ?_ rfl rfl rfl
      simp
    · -- Nothing is noted when a straggler is torn down.
      rw [finish_unwinding_eq hunwind]
      obtain ⟨hlog, hgiven, hframes⟩ := tearDown_spec (s.setFiber f { s.fibers f with
          step := false, busy := false, exc := (s.fibers f).caught e, frames := [] })
      refine .still (by simp) hlog hgiven (fun g hg => ?_)
      have hgf : g ≠ f := fun h => hnot (h ▸ hg)
      rw [hframes, FiberPool.setFiber_fibers_of_ne s f _ hgf]
      exact hs.frames hg
  · next c frames hnested hframes =>
    refine .still (by simp) rfl rfl (fun g hg => ?_)
    by_cases hgf : g = f
    · rw [hgf, FiberPool.setFiber_fibers_self]
      rintro rfl
      exact hnested rfl
    · rw [FiberPool.setFiber_fibers_of_ne s f _ hgf]
      exact hs.frames hg

/-- A resumption has its turn. -/
theorem Sound.move_dispatch (hs : Sound s) (hidle : s.stepping = none)
    (h : s.dispatch = some t) : Move s t .dispatch := by
  unfold FiberPool.dispatch at h
  split at h
  · simp at h
  · next f res rest hposted =>
    obtain rfl := Option.some.inj h
    have hwaiting : (s.view f).waiting := Or.inr (by simp [hposted])
    rcases hs.waiting hidle hwaiting with hflying | ⟨-, hpool⟩
    · obtain ⟨-, -, -, -, hgaveUp, hfiber⟩ := hs.flying hflying
      have hfiber' : (FiberPool.fibers { s with posted := rest } f).Flies := hfiber
      rw [if_pos hfiber'.pool, resume_eq hfiber']
      exact .resume f hgaveUp rfl rfl (fun g hg => hs.frames hg)
    · rw [if_neg (by simp [hpool])]
      exact .still (by simp) rfl rfl (fun g hg => hs.frames hg)

/-- Every step of a sound pool makes one of the moves. -/
theorem Sound.move (hs : Sound s) {a : Action} (h : Fibers.step s a = some t) :
    Move s t a := by
  cases a with
  | Run =>
    obtain rfl := Option.some.inj h
    exact hs.move_run
  | await =>
    obtain ⟨⟨f, resumed⟩, hstepping, rfl⟩ := Option.map_eq_some_iff.mp h
    have hcurrent : s.Current = some f := by simp [FiberPool.Current, hstepping]
    rcases hs.current hcurrent with ⟨-, hfiber, -⟩ | ⟨hunwinds, -⟩
    · dsimp only
      rw [await_eq hfiber]
      exact .still (by simp) rfl rfl (fun g hg => hs.frames hg)
    · dsimp only
      rw [FiberPool.await, if_pos hunwinds]
      exact .still (by simp) rfl rfl (fun g hg => hs.frames hg)
  | leave e =>
    obtain ⟨⟨f, resumed⟩, hstepping, rfl⟩ := Option.map_eq_some_iff.mp h
    exact hs.move_leave hstepping e
  | settle f res =>
    obtain ⟨-, rfl⟩ := of_guarded h
    exact .still (by simp) rfl rfl (fun g hg => hs.frames hg)
  | dispatch =>
    obtain ⟨hidle, ht⟩ := Option.ite_none_right_eq_some.mp h
    exact hs.move_dispatch hidle ht
  | Stop order =>
    obtain ⟨-, rfl⟩ := of_guarded h
    obtain ⟨hlog, hgiven, hframes⟩ := tearDown_spec { s with
      flying := ∅, stragglers := order, log := s.log ++ order.map Event.gaveUp }
    refine .stop order hlog hgiven (fun g hg => ?_)
    rw [FiberPool.Stop, hframes g]
    exact hs.frames hg

end Moves

/-! ## The log -/

/-- The closure that an event is the handling of. -/
def Event.handles : Event → Option ClosureId
  | .executed c _ => some c
  | .dropped c => some c
  | _ => none

/-- Nothing runs on the fiber. -/
def Untouched (log : List Event) (f : FiberId) : Prop :=
  .resumed f ∉ log ∧ ∀ c, .executed c f ∉ log

/-- What holds of the log in every state: the closures were handled one by one, and nothing has run
on a fiber since it was given up. -/
structure Noted (s : FiberPool) : Prop where
  handled : s.log.filterMap Event.handles = List.range s.given
  final : ∀ before f after, s.log = before ++ .gaveUp f :: after → Untouched after f

section Logs

variable {s t : FiberPool}

/-- A fiber untouched in a log is untouched in what stands in it. -/
theorem Untouched.mono {log more : List Event} {f : FiberId} (h : Untouched log f)
    (hsubset : more ⊆ log) : Untouched more f :=
  ⟨fun hmem => h.1 (hsubset hmem), fun c hmem => h.2 c (hsubset hmem)⟩

/-- More events that do not touch what was given up. -/
theorem final_append {log events : List Event}
    (hfinal : ∀ before f after, log = before ++ .gaveUp f :: after → Untouched after f)
    (hevents : ∀ f, .gaveUp f ∈ log ++ events → Untouched events f) :
    ∀ before f after, log ++ events = before ++ .gaveUp f :: after → Untouched after f := by
  intro before f after hsplit
  have huntouched : Untouched events f := hevents f (by simp [hsplit])
  rcases List.append_eq_append_iff.mp hsplit with ⟨more, hbefore, hmore⟩ | ⟨more, hlog, hmore⟩
  · -- The fiber is given up by one of the new events.
    apply huntouched.mono
    intro event hevent
    simp [hmore, hevent]
  · cases more with
    | nil =>
      apply huntouched.mono
      intro event hevent
      have hsame : .gaveUp f :: after = events := hmore
      simp [← hsame, hevent]
    | cons event more =>
      rw [List.cons_append] at hmore
      obtain ⟨rfl, rfl⟩ := List.cons_eq_cons.mp hmore
      obtain ⟨hresumed, hexecuted⟩ := hfinal before f more hlog
      refine ⟨?_, ?_⟩
      · rw [List.mem_append, not_or]
        exact ⟨hresumed, huntouched.1⟩
      · intro c
        rw [List.mem_append, not_or]
        exact ⟨hexecuted c, huntouched.2 c⟩

/-- The end of a closure is no handling of one, and touches no fiber. -/
theorem handles_finish (s : FiberPool) (f : FiberId) (resumed : Bool) (exc : Option Exc) :
    (returnEvents s f ++ excEvents resumed exc).filterMap Event.handles = [] ∧
      ∀ g, Untouched (returnEvents s f ++ excEvents resumed exc) g := by
  have hevent : ∀ event ∈ returnEvents s f ++ excEvents resumed exc,
      event.handles = none ∧ ∀ g, event ≠ .resumed g := by
    intro event hmem
    rcases List.mem_append.mp hmem with h | h
    · rcases mem_returnEvents h with rfl | rfl
      · exact ⟨rfl, by simp⟩
      · exact ⟨rfl, by simp⟩
    · obtain ⟨e, rfl | rfl⟩ := mem_excEvents h
      · exact ⟨rfl, by simp⟩
      · exact ⟨rfl, by simp⟩
  refine ⟨?_, ?_⟩
  · rw [List.filterMap_eq_nil_iff]
    exact fun event hmem => (hevent event hmem).1
  · intro g
    refine ⟨fun hmem => (hevent _ hmem).2 g rfl, fun c hmem => ?_⟩
    have hnone := (hevent _ hmem).1
    simp [Event.handles] at hnone

/-- Every move keeps what holds of the log. -/
theorem Noted.step (hn : Noted s) {a : Action} (hmove : Move s t a) : Noted t := by
  cases hmove with
  | drop _ hlog hgiven _ =>
    refine ⟨?_, ?_⟩
    · rw [hlog, List.filterMap_append, hn.handled, hgiven, List.range_succ]
      rfl
    · rw [hlog]
      exact final_append hn.final (fun f _ => ⟨by simp, by simp⟩)
  | execute f _ hgaveUp hlog hgiven _ =>
    refine ⟨?_, ?_⟩
    · rw [hlog, List.filterMap_append, hn.handled, hgiven, List.range_succ]
      rfl
    · rw [hlog]
      refine final_append hn.final (fun g hg => ⟨by simp, fun c hmem => ?_⟩)
      obtain ⟨-, rfl⟩ := Event.executed.inj (List.mem_singleton.mp hmem)
      rcases List.mem_append.mp hg with hg | hg
      · exact hgaveUp hg
      · simp at hg
  | finish e f resumed exc _ _ _ hlog hgiven =>
    obtain ⟨hhandles, huntouched⟩ := handles_finish s f resumed exc
    rw [List.append_assoc] at hlog
    refine ⟨?_, ?_⟩
    · rw [hlog, List.filterMap_append, hn.handled, hhandles, hgiven, List.append_nil]
    · rw [hlog]
      exact final_append hn.final (fun g _ => huntouched g)
  | resume f hgaveUp hlog hgiven _ =>
    refine ⟨?_, ?_⟩
    · rw [hlog, List.filterMap_append, hn.handled, hgiven]
      exact List.append_nil _
    · rw [hlog]
      refine final_append hn.final (fun g hg => ⟨fun hmem => ?_, by simp⟩)
      obtain rfl := Event.resumed.inj (List.mem_singleton.mp hmem)
      rcases List.mem_append.mp hg with hg | hg
      · exact hgaveUp hg
      · simp at hg
  | stop order hlog hgiven _ =>
    refine ⟨?_, ?_⟩
    · have hhandles : (order.map Event.gaveUp).filterMap Event.handles = [] := by
        simp [List.filterMap_eq_nil_iff, Event.handles]
      rw [hlog, List.filterMap_append, hn.handled, hhandles, hgiven, List.append_nil]
    · rw [hlog]
      exact final_append hn.final (fun g _ => ⟨by simp, by simp⟩)
  | still _ hlog hgiven _ =>
    refine ⟨?_, ?_⟩
    · rw [hlog, hn.handled, hgiven]
    · rw [hlog]
      exact hn.final

/-- Every handling of a closure is its execution, or its dropping. -/
theorem count_handles (log : List Event) (c : ClosureId) :
    (log.filterMap Event.handles).count c =
      log.countP (Event.executes c) + log.count (.dropped c) := by
  induction log with
  | nil => rfl
  | cons event log ih =>
    have hother (hhandles : event.handles = none) (hexecutes : ¬ event.executes c = true)
        (hdropped : event ≠ .dropped c) : ((event :: log).filterMap Event.handles).count c =
          (event :: log).countP (Event.executes c) + (event :: log).count (.dropped c) := by
      rw [List.filterMap_cons_none hhandles, List.countP_cons_of_neg hexecutes,
        List.count_cons_of_ne hdropped, ih]
    cases event with
    | executed c' f =>
      have hhandles : (Event.executed c' f).handles = some c' := rfl
      have hdropped : Event.executed c' f ≠ .dropped c := by simp
      rw [List.filterMap_cons_some hhandles, @List.count_cons_of_ne _ _ _ _ _ hdropped]
      by_cases hc : c' = c
      · rw [hc, List.count_cons_self, List.countP_cons_of_pos (by simp [Event.executes]), ih]
        omega
      · rw [List.count_cons_of_ne hc, List.countP_cons_of_neg (by simp [Event.executes, hc]), ih]
    | dropped c' =>
      have hhandles : (Event.dropped c').handles = some c' := rfl
      rw [List.filterMap_cons_some hhandles, List.countP_cons_of_neg (by simp [Event.executes])]
      by_cases hc : c' = c
      · rw [hc, List.count_cons_self, List.count_cons_self, ih]
        omega
      · rw [List.count_cons_of_ne hc, List.count_cons_of_ne (by simp [hc]), ih]
    | resumed f => exact hother rfl (by simp [Event.executes]) (by simp)
    | released f => exact hother rfl (by simp [Event.executes]) (by simp)
    | gaveUp f => exact hother rfl (by simp [Event.executes]) (by simp)
    | idle => exact hother rfl (by simp [Event.executes]) (by simp)
    | thrown e => exact hother rfl (by simp [Event.executes]) (by simp)
    | Error message => exact hother rfl (by simp [Event.executes]) (by simp)

/-- A closure was executed once, or dropped. -/
theorem Noted.once (hn : Noted s) {c : ClosureId} (hc : c < s.given) :
    (s.executions c = 1 ∧ .dropped c ∉ s.log) ∨ (s.executions c = 0 ∧ .dropped c ∈ s.log) := by
  have hcount : s.executions c + s.log.count (.dropped c) = 1 := by
    rw [FiberPool.executions, ← count_handles, hn.handled]
    exact List.count_eq_one_of_mem List.nodup_range (List.mem_range.mpr hc)
  by_cases hdropped : .dropped c ∈ s.log
  · have hpos := List.count_pos_iff.mpr hdropped
    exact Or.inr ⟨by omega, hdropped⟩
  · have hzero := List.count_eq_zero_of_not_mem hdropped
    exact Or.inl ⟨by omega, hdropped⟩

/-- A fiber that is returned emits `idle` when it was the last one. -/
theorem count_idle_returnEvents (s : FiberPool) (f : FiberId) :
    (returnEvents s f).count .idle = if s.flying.erase f = ∅ then 1 else 0 := by
  rw [returnEvents, List.count_append]
  have hreleased : (if s.parked.length < s.pooledFibers then []
      else [Event.released f]).count .idle = 0 := by
    split
    · rfl
    · rfl
  rw [hreleased, Nat.zero_add]
  split
  · rfl
  · rfl

/-- The next closure was not handled yet. -/
theorem Noted.dropped_lt (hn : Noted s) {c : ClosureId} (h : .dropped c ∈ s.log) : c < s.given := by
  have hmem : c ∈ s.log.filterMap Event.handles := List.mem_filterMap.mpr ⟨_, h, rfl⟩
  rw [hn.handled] at hmem
  exact List.mem_range.mp hmem

end Logs

/-! ## The guarantees hold -/

section Guarantees

variable {s t : FiberPool}

/-- A fiber is in one place. -/
theorem Phase.place {f : FiberId} (h : Phase (s.view f)) :
    OneOf (f ∈ s.parked) (f ∈ s.flying) (s.Released f) := by
  cases h with
  | parked hparked hflying _ _ _ hreleased hgaveUp _ =>
    exact Or.inl ⟨hparked, hflying, fun h => h.elim hreleased hgaveUp⟩
  | flying hparked hflying _ _ hreleased hgaveUp _ =>
    exact Or.inr (Or.inl ⟨hparked, hflying, fun h => h.elim hreleased hgaveUp⟩)
  | released hparked hflying _ _ _ hreleased _ _ =>
    exact Or.inr (Or.inr ⟨hparked, hflying, Or.inl hreleased⟩)
  | straggler hparked hflying _ _ _ hgaveUp _ =>
    exact Or.inr (Or.inr ⟨hparked, hflying, Or.inr hgaveUp⟩)
  | unwinding hparked hflying _ _ _ hgaveUp _ _ _ =>
    exact Or.inr (Or.inr ⟨hparked, hflying, Or.inr hgaveUp⟩)
  | tornDown hparked hflying _ _ _ hgaveUp _ _ =>
    exact Or.inr (Or.inr ⟨hparked, hflying, Or.inr hgaveUp⟩)

/-- A fiber flies as long as its closure is under way and it is not given up. -/
theorem Phase.flies {f : FiberId} (h : Phase (s.view f)) :
    f ∈ s.flying ↔ (s.fibers f).frames ≠ [] ∧ .gaveUp f ∉ s.log := by
  have hgone (hflying : f ∉ s.flying) (hgaveUp : .gaveUp f ∈ s.log) :
      f ∈ s.flying ↔ (s.fibers f).frames ≠ [] ∧ .gaveUp f ∉ s.log :=
    ⟨fun h => absurd h hflying, fun h => absurd hgaveUp h.2⟩
  have hover (hflying : f ∉ s.flying) (hframes : (s.fibers f).frames = []) :
      f ∈ s.flying ↔ (s.fibers f).frames ≠ [] ∧ .gaveUp f ∉ s.log :=
    ⟨fun h => absurd h hflying, fun h => absurd hframes h.1⟩
  cases h with
  | parked _ hflying _ _ _ _ _ hfiber => exact hover hflying hfiber.frames
  | flying _ hflying _ _ _ hgaveUp hfiber =>
    exact ⟨fun _ => ⟨hfiber.frames, hgaveUp⟩, fun _ => hflying⟩
  | released _ hflying _ _ _ _ _ hframes => exact hover hflying hframes
  | straggler _ hflying _ _ _ hgaveUp _ => exact hgone hflying hgaveUp
  | unwinding _ hflying _ _ _ hgaveUp _ _ _ => exact hgone hflying hgaveUp
  | tornDown _ hflying _ _ _ hgaveUp _ _ => exact hgone hflying hgaveUp

/-- Unless a straggler is being torn down, none is left to be. -/
theorem Sound.over_of_gaveUp (hs : Sound s) (hunwinds : ¬ s.Unwinds) {f : FiberId}
    (hf : f < s.created) (hgaveUp : .gaveUp f ∈ s.log) : (s.fibers f).frames = [] := by
  cases hs.known f hf with
  | parked _ _ _ _ _ _ h _ => exact absurd hgaveUp h
  | flying _ _ _ _ _ h _ => exact absurd hgaveUp h
  | released _ _ _ _ _ _ h _ => exact absurd hgaveUp h
  | straggler _ _ hstraggler _ _ _ _ =>
    obtain ⟨g, hg, hunwind⟩ := hs.stopping (List.ne_nil_of_mem hstraggler)
    exact absurd ⟨g, hg, hunwind⟩ hunwinds
  | unwinding _ _ _ hcurrent _ _ _ hunwind _ => exact absurd ⟨f, hcurrent, hunwind⟩ hunwinds
  | tornDown _ _ _ _ _ _ _ hframes => exact hframes

/-- The guarantees about a state. -/
theorem Sound.lawful (hs : Sound s) (hn : Noted s) : Lawful s where
  place := fun f hf => (hs.known f hf).place
  flies := fun f hf => (hs.known f hf).flies
  flies_outside_stop := by
    intro hunwinds f hf
    rw [(hs.known f hf).flies]
    exact ⟨fun h => h.1, fun hframes => ⟨hframes, fun hgaveUp =>
      hframes (hs.over_of_gaveUp hunwinds hf hgaveUp)⟩⟩
  parked_once := hs.parked_nodup
  parked_le := hs.parked_le
  once := fun c hc => hn.once hc
  final := hn.final

/-- The guarantees about a step. -/
theorem Noted.lawfulStep (hn : Noted s) {a : Action} (hmove : Move s t a) : LawfulStep s a t := by
  -- Nothing comes to its end, and `idle` is not among the events.
  have hstays {events : List Event} (hlog : t.log = s.log ++ events) (hidle : .idle ∉ events)
      (hframes : ∀ g ∈ s.flying, (t.fibers g).frames ≠ []) :
      t.idles = s.idles + 1 ∧ (∃ f ∈ s.flying, (t.fibers f).frames = []) ∧ t.flying = ∅ ∨
        t.idles = s.idles ∧ ¬ ((∃ f ∈ s.flying, (t.fibers f).frames = []) ∧ t.flying = ∅) := by
    refine Or.inr ⟨?_, ?_⟩
    · rw [FiberPool.idles, hlog, List.count_append, List.count_eq_zero_of_not_mem hidle]
      rfl
    · rintro ⟨⟨f, hf, hover⟩, -⟩
      exact hframes f hf hover
  have hnew : .dropped s.given ∉ s.log := fun h => Nat.lt_irrefl _ (hn.dropped_lt h)
  cases hmove with
  | drop hunwinds hlog hgiven hframes =>
    refine ⟨by rw [hgiven, if_pos rfl], fun _ => ?_, hstays hlog (by simp) hframes⟩
    simp [hlog, hunwinds]
  | execute f hunwinds _ hlog hgiven hframes =>
    refine ⟨by rw [hgiven, if_pos rfl], fun _ => ?_, hstays hlog (by simp) hframes⟩
    simp [hlog, hunwinds, hnew]
  | finish e f resumed exc hmem hframes hflying hlog hgiven =>
    refine ⟨by rw [hgiven, if_neg (by simp)], fun h => absurd h (by simp), ?_⟩
    have hidle : .idle ∉ excEvents resumed exc := by
      intro h
      obtain ⟨e, h | h⟩ := mem_excEvents h
      · cases h
      · cases h
    have hidles : t.idles = s.idles + (returnEvents s f).count .idle := by
      rw [FiberPool.idles, hlog, List.count_append, List.count_append,
        List.count_eq_zero_of_not_mem hidle, Nat.add_zero]
      rfl
    rw [hidles, count_idle_returnEvents, hflying]
    split
    · next hempty => exact Or.inl ⟨rfl, ⟨f, hmem, hframes⟩, hempty⟩
    · next hempty => exact Or.inr ⟨rfl, fun h => hempty h.2⟩
  | resume f _ hlog hgiven hframes =>
    exact ⟨by rw [hgiven, if_neg (by simp)], fun h => absurd h (by simp),
      hstays hlog (by simp) hframes⟩
  | stop order hlog hgiven hframes =>
    exact ⟨by rw [hgiven, if_neg (by simp)], fun h => absurd h (by simp),
      hstays hlog (by simp) hframes⟩
  | still ha hlog hgiven hframes =>
    exact ⟨by rw [hgiven, if_neg ha], fun h => absurd h ha,
      hstays (hlog.trans (List.append_nil _).symm) (by simp) hframes⟩

/-- In every run, the guarantees hold in every state reached, and about every step from there. -/
theorem lawful_of_run (pooledFibers : ℕ) {actions : List Action}
    (hrun : run step (.new pooledFibers) actions = some s) :
    Lawful s ∧ ∀ a t, step s a = some t → LawfulStep s a t := by
  have hnew : Noted (.new pooledFibers) := by
    refine ⟨rfl, ?_⟩
    intro before f after hsplit
    simp [FiberPool.new] at hsplit
  have hstep {s : FiberPool} {a : Action} {t : FiberPool} (hs : Sound s ∧ Noted s)
      (h : step s a = some t) : Sound t ∧ Noted t :=
    ⟨hs.1.step h, hs.2.step (hs.1.move h)⟩
  obtain ⟨hs, hn⟩ := run_invariant_of_step hstep ⟨sound_new pooledFibers, hnew⟩ hrun
  exact ⟨hs.lawful hn, fun a t hstep => hn.lawfulStep (hs.move hstep)⟩

end Guarantees

/-- A closure waits for a signal when `Stop` gives its fiber up. It catches the shutdown and gives
the pool another closure, which is dropped. -/
def stopInAwait : List Action := [.Run, .await, .Stop [0], .Run]

/-- A fiber given up while it waits: the guarantees hold of the state and of every step from it. -/
theorem lawful_stopInAwait : ∃ s, run step (.new 8) stopInAwait = some s ∧
    Lawful s ∧ ∀ a t, step s a = some t → LawfulStep s a t := by
  obtain ⟨s, hrun⟩ : ∃ s, run step (.new 8) stopInAwait = some s := ⟨_, rfl⟩
  exact ⟨s, hrun, lawful_of_run 8 hrun⟩

/-- The closure has started and is not over, but its fiber is not flying any more. -/
theorem not_flies_stopInAwait : ¬ ∀ s, run step (.new 8) stopInAwait = some s →
    ∀ f < s.created, f ∈ s.flying ↔ (s.fibers f).frames ≠ [] := by
  intro h
  exact absurd (h _ rfl 0 (by decide)) (by decide)

end Radapter.Fibers
