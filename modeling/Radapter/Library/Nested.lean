import Mathlib.Data.List.Basic

/-!
# Nested stores

A store holds a value under every key, and the values are stores of the same kind. This file has
reading and writing along a path of keys, and the frame rule: a write changes what is read at its
path and below, and nothing at the paths that part ways with it.
-/

namespace Library

variable {α κ : Type*}

/-- Two paths differ at some part. -/
def Diverge (path other : List κ) : Prop :=
  ∃ (i : ℕ) (k j : κ), path[i]? = some k ∧ other[i]? = some j ∧ k ≠ j

namespace Diverge

variable {path other : List κ}

/-- A path that diverges from another does not lead to it. -/
theorem not_prefix (h : Diverge path other) : ¬ path <+: other := by
  rintro ⟨rest, rfl⟩
  obtain ⟨i, k, j, hk, hj, hne⟩ := h
  have hi : i < path.length := (List.getElem?_eq_some_iff.mp hk).1
  rw [List.getElem?_append_left hi, hk] at hj
  exact hne (Option.some.inj hj)

/-- To diverge is mutual. -/
theorem symm (h : Diverge path other) : Diverge other path := by
  obtain ⟨i, k, j, hk, hj, hne⟩ := h
  exact ⟨i, j, k, hj, hk, hne.symm⟩

/-- Paths with the same first part diverge behind it. -/
theorem of_cons {k : κ} (h : Diverge (k :: path) (k :: other)) : Diverge path other := by
  obtain ⟨i, x, y, hx, hy, hne⟩ := h
  cases i with
  | zero =>
    rw [List.getElem?_cons_zero, Option.some.injEq] at hx hy
    exact absurd (hx.symm.trans hy) hne
  | succ i => exact ⟨i, x, y, hx, hy, hne⟩

end Diverge

/-- Reading and writing under a key, with the two laws of a store. -/
structure Store (α κ : Type*) where
  get : α → κ → α
  set : α → κ → α → α
  get_set_self : ∀ a k x, get (set a k x) k = x
  get_set_ne : ∀ a {k j} x, j ≠ k → get (set a k x) j = get a j

namespace Store

variable (S : Store α κ)

/-- The value at the end of a path. -/
def readAt (a : α) (path : List κ) : α := path.foldl S.get a

/-- Write a value at the end of a path. -/
def writeAt (x : α) : List κ → α → α
  | [], _ => x
  | k :: rest, a => S.set a k (writeAt x rest (S.get a k))

/-- The empty path stays where it is. -/
@[simp] theorem readAt_nil (a : α) : S.readAt a [] = a := rfl

/-- A path is followed key by key. -/
@[simp] theorem readAt_cons (a : α) (k : κ) (path : List κ) :
    S.readAt a (k :: path) = S.readAt (S.get a k) path := rfl

/-- A write along a path is a write at its first part of what a write along the second makes. -/
theorem writeAt_append (x a : α) (path rest : List κ) :
    S.writeAt x (path ++ rest) a = S.writeAt (S.writeAt x rest (S.readAt a path)) path a := by
  induction path generalizing a with
  | nil => rfl
  | cons k path ih => rw [List.cons_append, writeAt, writeAt, ih, readAt_cons]

/-- At its path and below, a write is what is read. -/
theorem readAt_writeAt (x a : α) (path rest : List κ) :
    S.readAt (S.writeAt x path a) (path ++ rest) = S.readAt x rest := by
  induction path generalizing a with
  | nil => rfl
  | cons k path ih => rw [List.cons_append, readAt_cons, writeAt, S.get_set_self, ih]

/-- A write changes nothing at the paths that part ways with its own. -/
theorem readAt_writeAt_apart (x a : α) {path other : List κ} (h : ¬ path <+: other)
    (h' : ¬ other <+: path) : S.readAt (S.writeAt x path a) other = S.readAt a other := by
  induction path generalizing a other with
  | nil => exact absurd List.nil_prefix h
  | cons k path ih =>
    cases other with
    | nil => exact absurd List.nil_prefix h'
    | cons j other =>
      rw [readAt_cons, readAt_cons, writeAt]
      by_cases hj : j = k
      · subst hj
        rw [S.get_set_self]
        apply ih
        · intro hpre
          exact h (List.cons_prefix_cons.mpr ⟨rfl, hpre⟩)
        · intro hpre
          exact h' (List.cons_prefix_cons.mpr ⟨rfl, hpre⟩)
      · rw [S.get_set_ne _ _ hj]

end Store

end Library
