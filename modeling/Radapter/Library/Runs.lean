import Mathlib.Data.List.Induction

/-!
# Runs of a machine

A machine takes steps on a state; a step that is not enabled in a state has no result. This file
has the runs of such a machine and the induction rule for facts that hold at every point of a
run whose steps meet a condition.
-/

namespace Library

variable {σ α : Type*}

/-- The state after a sequence of steps, if all of them are enabled. -/
def run (step : σ → α → Option σ) : σ → List α → Option σ
  | s, [] => some s
  | s, a :: rest => (step s a).bind (fun t => run step t rest)

/-- Every step of the run meets the condition `good` in the state it is taken in. -/
def Along (step : σ → α → Option σ) (good : σ → α → Prop) : σ → List α → Prop
  | _, [] => True
  | s, a :: rest => good s a ∧ ∀ t ∈ step s a, Along step good t rest

variable {step : σ → α → Option σ}

/-- The condition can be checked along a run when it can be checked on a step. -/
instance Along.decidable {good : σ → α → Prop} [∀ s a, Decidable (good s a)] :
    (s : σ) → (actions : List α) → Decidable (Along step good s actions)
  | _, [] => isTrue trivial
  | s, a :: rest =>
      have : ∀ t, Decidable (Along step good t rest) := fun t => Along.decidable t rest
      inferInstanceAs (Decidable (good s a ∧ ∀ t ∈ step s a, Along step good t rest))

/-- A step with a guard is taken where the guard holds. -/
theorem of_guarded {c : Prop} [Decidable c] {u t : σ}
    (h : (if c then some u else none) = some t) : c ∧ u = t := by
  obtain ⟨hc, hu⟩ := Option.ite_none_right_eq_some.mp h
  exact ⟨hc, Option.some.inj hu⟩

/-- The condition along a run, from its first step and the rest. -/
theorem Along.cons {good : σ → α → Prop} {s t : σ} {a : α} {rest : List α} (hgood : good s a)
    (hstep : step s a = some t) (hrest : Along step good t rest) :
    Along step good s (a :: rest) := by
  refine ⟨hgood, fun u hu => ?_⟩
  obtain rfl := Option.some.inj (hstep.symm.trans hu)
  exact hrest

/-- A condition that all steps meet can be added to the one that they meet along the run. -/
theorem Along.and_forall {good : σ → α → Prop} {p : α → Prop} {s : σ} {actions : List α}
    (hgood : Along step good s actions) (hall : ∀ a ∈ actions, p a) :
    Along step (fun s a => p a ∧ good s a) s actions := by
  induction actions generalizing s with
  | nil => trivial
  | cons a rest ih =>
    refine ⟨⟨hall a List.mem_cons_self, hgood.1⟩, ?_⟩
    intro t ht
    exact ih (hgood.2 t ht) (fun b hb => hall b (List.mem_cons_of_mem a hb))

/-- The condition along a run is one along its end. -/
theorem Along.of_append {good : σ → α → Prop} {s t : σ} {front back : List α}
    (hgood : Along step good s (front ++ back)) (hrun : run step s front = some t) :
    Along step good t back := by
  induction front generalizing s with
  | nil =>
    cases hrun
    exact hgood
  | cons a rest ih =>
    obtain ⟨next, hnext, hrun⟩ := Option.bind_eq_some_iff.mp hrun
    exact ih (hgood.2 next hnext) hrun

/-- A run can be cut anywhere. -/
theorem run_append (s : σ) (front back : List α) :
    run step s (front ++ back) = (run step s front).bind (fun t => run step t back) := by
  induction front generalizing s with
  | nil => rfl
  | cons b rest ih =>
    simp only [List.cons_append, run]
    cases step s b with
    | none => rfl
    | some t => exact ih t

/-- A run can be cut before its last step. -/
theorem run_concat (s : σ) (actions : List α) (a : α) :
    run step s (actions ++ [a]) = (run step s actions).bind (fun t => step t a) := by
  rw [run_append]
  simp [run]

/-- A machine that is never stuck has every run. -/
theorem exists_run (hstep : ∀ s a, ∃ t, step s a = some t) (s : σ) (actions : List α) :
    ∃ t, run step s actions = some t := by
  induction actions generalizing s with
  | nil => exact ⟨s, rfl⟩
  | cons a rest ih =>
    obtain ⟨next, hnext⟩ := hstep s a
    obtain ⟨t, ht⟩ := ih next
    exact ⟨t, by rw [run, hnext, Option.bind_some, ht]⟩

/-- What a step that meets the condition preserves holds at every point of a run whose steps
all meet it. -/
theorem run_invariant {Inv : σ → Prop} {good : σ → α → Prop}
    (hstep : ∀ {s a t}, Inv s → good s a → step s a = some t → Inv t) {s : σ} (hs : Inv s)
    {actions : List α} (hgood : Along step good s actions) {done : List α}
    (hdone : done <+: actions) {t : σ} (hrun : run step s done = some t) : Inv t := by
  induction done generalizing s actions with
  | nil =>
    cases hrun
    exact hs
  | cons a rest ih =>
    cases actions with
    | nil => simp at hdone
    | cons b more =>
      obtain ⟨rfl, hrest⟩ := List.cons_prefix_cons.mp hdone
      obtain ⟨next, hnext, hrun⟩ := Option.bind_eq_some_iff.mp hrun
      exact ih (hstep hs hgood.1 hnext) (hgood.2 next hnext) hrest hrun

/-- The condition holds of every step of the run in the state that it is taken in. -/
theorem good_of_along {good : σ → α → Prop} {s : σ} {actions : List α}
    (hgood : Along step good s actions) {done : List α} {a : α} (hdone : done ++ [a] <+: actions)
    {t : σ} (hrun : run step s done = some t) : good t a := by
  induction done generalizing s actions with
  | nil =>
    cases hrun
    cases actions with
    | nil => simp at hdone
    | cons b rest =>
      obtain ⟨rfl, -⟩ := List.cons_prefix_cons.mp hdone
      exact hgood.1
  | cons b done ih =>
    cases actions with
    | nil => simp at hdone
    | cons c rest =>
      obtain ⟨rfl, hrest⟩ := List.cons_prefix_cons.mp hdone
      obtain ⟨next, hnext, hrun⟩ := Option.bind_eq_some_iff.mp hrun
      exact ih (hgood.2 next hnext) hrest hrun

/-- Two conditions that agree wherever an invariant holds, agree along every run that starts
there. -/
theorem along_iff {Inv : σ → Prop} {good other : σ → α → Prop}
    (hstep : ∀ {s a t}, Inv s → step s a = some t → Inv t)
    (hagree : ∀ {s} a, Inv s → (good s a ↔ other s a)) {s : σ} (hs : Inv s) (actions : List α) :
    Along step good s actions ↔ Along step other s actions := by
  induction actions generalizing s with
  | nil => exact Iff.rfl
  | cons a rest ih =>
    rw [Along, Along, hagree a hs]
    apply and_congr_right
    intro _
    apply forall_congr'
    intro t
    apply forall_congr'
    intro ht
    exact ih (hstep hs ht)

/-- A property holds at every point of a run if and only if all steps meet a condition, when the
steps that meet it preserve what the property needs and the others break the property. -/
theorem forall_run_iff_along {Inv P : σ → Prop} {good : σ → α → Prop}
    (hstep : ∀ {s a t}, Inv s → good s a → step s a = some t → Inv t)
    (hholds : ∀ {s}, Inv s → P s)
    (hbreak : ∀ {s a t}, Inv s → ¬ good s a → step s a = some t → ¬ P t) {s t : σ} (hs : Inv s)
    {actions : List α} (hrun : run step s actions = some t) :
    (∀ done u, done <+: actions → run step s done = some u → P u) ↔
      Along step good s actions := by
  constructor
  · intro hall
    induction actions generalizing s with
    | nil => trivial
    | cons a rest ih =>
      obtain ⟨next, hnext, hrun⟩ := Option.bind_eq_some_iff.mp hrun
      have hgood : good s a := by
        by_contra hbad
        have hone : run step s [a] = some next := by simp [run, hnext]
        exact hbreak hs hbad hnext (hall [a] next ⟨rest, rfl⟩ hone)
      refine ⟨hgood, fun u hu => ?_⟩
      obtain rfl := Option.some.inj (hnext.symm.trans hu)
      apply ih (hstep hs hgood hnext) hrun
      intro done u hdone hu
      apply hall (a :: done) u (List.cons_prefix_cons.mpr ⟨rfl, hdone⟩)
      simp [run, hnext, hu]
  · intro hgood done u hdone hu
    exact hholds (run_invariant hstep hs hgood hdone hu)

/-- The same for runs that may be cut short, where a step that does not meet the condition is taken
and breaks the property. -/
theorem forall_run_iff_along_of_taken {Inv P : σ → Prop} {good : σ → α → Prop}
    (hstep : ∀ {s a t}, Inv s → good s a → step s a = some t → Inv t)
    (hholds : ∀ {s}, Inv s → P s)
    (hbreak : ∀ {s a}, Inv s → ¬ good s a → ∃ t, step s a = some t ∧ ¬ P t) {s : σ} (hs : Inv s)
    (actions : List α) :
    (∀ done u, done <+: actions → run step s done = some u → P u) ↔
      Along step good s actions := by
  constructor
  · intro hall
    induction actions generalizing s with
    | nil => trivial
    | cons a rest ih =>
      have hgood : good s a := by
        by_contra hbad
        obtain ⟨next, hnext, hno⟩ := hbreak hs hbad
        have hone : run step s [a] = some next := by simp [run, hnext]
        exact hno (hall [a] next ⟨rest, rfl⟩ hone)
      refine ⟨hgood, fun next hnext => ih (hstep hs hgood hnext) ?_⟩
      intro done u hdone hu
      have hrun : run step s (a :: done) = some u :=
        Option.bind_eq_some_iff.mpr ⟨next, hnext, hu⟩
      exact hall (a :: done) u (List.cons_prefix_cons.mpr ⟨rfl, hdone⟩) hrun
  · intro hgood done u hdone hu
    exact hholds (run_invariant hstep hs hgood hdone hu)

/-- What every step preserves holds at every point of every run. -/
theorem run_invariant_of_step {Inv : σ → Prop}
    (hstep : ∀ {s a t}, Inv s → step s a = some t → Inv t) {s : σ} (hs : Inv s)
    {actions : List α} {t : σ} (hrun : run step s actions = some t) : Inv t := by
  induction actions generalizing s with
  | nil =>
    cases hrun
    exact hs
  | cons a rest ih =>
    obtain ⟨next, hnext, hrun⟩ := Option.bind_eq_some_iff.mp hrun
    exact ih (hstep hs hnext) hrun

end Library
