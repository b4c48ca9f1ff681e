import Mathlib.Data.List.Basic

/-!
# Computations that may fail

What is known of the parts of a computation in `Except` that has a result, and the rules for what a
computation meets: its result one condition, or its error another.
-/

namespace Library

universe u v

variable {ε : Type v} {α β : Type u}

/-- Two computations succeed one after the other. -/
theorem bind_eq_ok {x : Except ε α} {f : α → Except ε β} {b : β} :
    (x >>= f) = .ok b ↔ ∃ a, x = .ok a ∧ f a = .ok b := by
  cases x with
  | error err => simp [Bind.bind, Except.bind]
  | ok a => simp [Bind.bind, Except.bind]

/-- A function of a result succeeds where the result does. -/
theorem map_eq_ok {x : Except ε α} {f : α → β} {b : β} :
    x.map f = .ok b ↔ ∃ a, x = .ok a ∧ f a = b := by
  cases x with
  | error err => simp [Except.map]
  | ok a => simp [Except.map]

/-- The result meets `post`, or the error meets `fails`. -/
def Meets (fails : ε → Prop) (post : α → Prop) : Except ε α → Prop
  | .ok a => post a
  | .error e => fails e

/-- What is met may be weakened, for results and for errors. -/
theorem Meets.imp {fails fails' : ε → Prop} {post post' : α → Prop} {x : Except ε α}
    (h : Meets fails post x) (hfails : ∀ e, fails e → fails' e) (hpost : ∀ a, post a → post' a) :
    Meets fails' post' x := by
  cases x with
  | error e => exact hfails e h
  | ok a => exact hpost a h

/-- The second computation may rely on what the first one meets. -/
theorem Meets.bind {fails : ε → Prop} {post : α → Prop} {post' : β → Prop} {x : Except ε α}
    {f : α → Except ε β} (hx : Meets fails post x) (hf : ∀ a, post a → Meets fails post' (f a)) :
    Meets fails post' (x >>= f) := by
  cases x with
  | error e => exact hx
  | ok a => exact hf a hx

/-- The rule for a computation that passes a state on. -/
theorem Meets.run_bind {σ : Type u} {fails : ε → Prop} {post : α × σ → Prop}
    {post' : β × σ → Prop} {x : StateT σ (Except ε) α} {f : α → StateT σ (Except ε) β} {s : σ}
    (hx : Meets fails post (x.run s))
    (hf : ∀ a t, post (a, t) → Meets fails post' ((f a).run t)) :
    Meets fails post' ((x >>= f).run s) := by
  rw [StateT.run_bind]
  exact hx.bind fun r hr => hf r.1 r.2 hr

/-- Every result of a list comes from one of its elements. -/
theorem exists_of_mem_mapM {f : α → Except ε β} {items : List α} {results : List β}
    (h : items.mapM f = .ok results) {b : β} (hb : b ∈ results) : ∃ a ∈ items, f a = .ok b := by
  induction items generalizing results with
  | nil =>
    rw [List.mapM_nil] at h
    cases h
    cases hb
  | cons a rest ih =>
    rw [List.mapM_cons] at h
    obtain ⟨b', hfirst, h⟩ := bind_eq_ok.mp h
    obtain ⟨others, hrest, h⟩ := bind_eq_ok.mp h
    cases h
    rcases List.mem_cons.mp hb with rfl | hmem
    · exact ⟨a, List.mem_cons_self, hfirst⟩
    · obtain ⟨a', ha', hf⟩ := ih hrest hmem
      exact ⟨a', List.mem_cons_of_mem a ha', hf⟩

/-- A check of every element that goes through. -/
theorem forall_of_forM {f : α → Except ε PUnit} {items : List α}
    (h : items.forM f = .ok PUnit.unit) : ∀ a ∈ items, f a = .ok PUnit.unit := by
  induction items with
  | nil => exact fun a ha => absurd ha List.not_mem_nil
  | cons first rest ih =>
    obtain ⟨⟨⟩, hfirst, hrest⟩ := bind_eq_ok.mp h
    exact List.forall_mem_cons.mpr ⟨hfirst, ih hrest⟩

end Library
