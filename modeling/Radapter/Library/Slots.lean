import Mathlib.Data.Nat.Notation
import Mathlib.Logic.Function.Basic
import Mathlib.Tactic.SplitIfs

/-!
# Slots and their owners

A table has numbered slots. Whoever owns a slot finds in it what was put there, as long as every
slot that is taken has one owner. The rules say what an owner may do: take a free slot, give one up
or pass it on. What the other owners find does not change.
-/

namespace Library

variable {ι α : Type*}

/-- Every slot that is taken has one owner, and no owner has a slot that is free. -/
structure Owned (cells : ℕ → Option α) (slot : ι → Option ℕ) : Prop where
  taken : ∀ {i r}, slot i = some r → (cells r).isSome
  apart : ∀ {i j r}, slot i = some r → slot j = some r → i = j
  owner : ∀ {r}, (cells r).isSome → ∃ i, slot i = some r

/-- What an owner finds in its slot. -/
def found (cells : ℕ → Option α) (slot : ι → Option ℕ) (i : ι) : Option α := (slot i).bind cells

variable {cells : ℕ → Option α} {slot : ι → Option ℕ} {i j : ι} {r : ℕ}

/-- An owner without a slot finds nothing. -/
theorem found_of_none (hi : slot i = none) : found cells slot i = none := by
  rw [found, hi, Option.bind_none]

/-- An owner finds what its cell holds. -/
theorem found_of_some (hi : slot i = some r) : found cells slot i = cells r := by
  rw [found, hi, Option.bind_some]

/-- Slots that nobody owns and none of which is taken. -/
theorem owned_empty : Owned (fun _ => (none : Option α)) (fun _ : ι => none) where
  taken := by
    intro i r hi
    cases hi
  apart := by
    intro i j r hi
    cases hi
  owner := by
    intro r hr
    cases hr

variable [DecidableEq ι]

/-- An owner without a slot takes one that is free. -/
theorem Owned.acquire (h : Owned cells slot) (hi : slot i = none) (hr : cells r = none) (x : α) :
    Owned (Function.update cells r (some x)) (Function.update slot i (some r)) where
  taken := by
    intro j r' hj
    by_cases heq : r' = r
    · rw [heq, Function.update_self]
      rfl
    · rw [Function.update_of_ne heq]
      by_cases hji : j = i
      · rw [hji, Function.update_self] at hj
        exact absurd (Option.some.inj hj).symm heq
      · rw [Function.update_of_ne hji] at hj
        exact h.taken hj
  apart := by
    -- Nobody else has the slot: it was free.
    have hfree {j : ι} (hj : slot j = some r) : False := by
      have htaken := h.taken hj
      rw [hr] at htaken
      cases htaken
    intro j k r' hj hk
    by_cases hji : j = i
    · by_cases hki : k = i
      · rw [hji, hki]
      · rw [hji, Function.update_self] at hj
        rw [Function.update_of_ne hki, ← hj] at hk
        exact (hfree hk).elim
    · rw [Function.update_of_ne hji] at hj
      by_cases hki : k = i
      · rw [hki, Function.update_self] at hk
        rw [← hk] at hj
        exact (hfree hj).elim
      · rw [Function.update_of_ne hki] at hk
        exact h.apart hj hk
  owner := by
    intro r' hr'
    by_cases heq : r' = r
    · exact ⟨i, by rw [heq, Function.update_self]⟩
    · rw [Function.update_of_ne heq] at hr'
      obtain ⟨j, hj⟩ := h.owner hr'
      have hji : j ≠ i := by
        rintro rfl
        rw [hi] at hj
        cases hj
      exact ⟨j, by rw [Function.update_of_ne hji, hj]⟩

/-- It finds what was put there, and the others what they found before. -/
theorem Owned.found_acquire (h : Owned cells slot) (hr : cells r = none) (x : α) :
    found (Function.update cells r (some x)) (Function.update slot i (some r)) =
      Function.update (found cells slot) i (some x) := by
  funext j
  by_cases hji : j = i
  · rw [hji, Function.update_self, found_of_some (Function.update_self ..), Function.update_self]
  · rw [Function.update_of_ne hji, found, found, Function.update_of_ne hji]
    cases hj : slot j with
    | none => rfl
    | some r' =>
      have hne : r' ≠ r := by
        rintro rfl
        have htaken := h.taken hj
        rw [hr] at htaken
        cases htaken
      rw [Option.bind_some, Option.bind_some, Function.update_of_ne hne]

/-- An owner gives up its slot. -/
theorem Owned.release (h : Owned cells slot) (hi : slot i = some r) :
    Owned (Function.update cells r none) (Function.update slot i none) where
  taken := by
    intro j r' hj
    by_cases hji : j = i
    · rw [hji, Function.update_self] at hj
      cases hj
    · rw [Function.update_of_ne hji] at hj
      have hne : r' ≠ r := by
        rintro rfl
        exact hji (h.apart hj hi)
      rw [Function.update_of_ne hne]
      exact h.taken hj
  apart := by
    intro j k r' hj hk
    by_cases hji : j = i
    · rw [hji, Function.update_self] at hj
      cases hj
    · by_cases hki : k = i
      · rw [hki, Function.update_self] at hk
        cases hk
      · rw [Function.update_of_ne hji] at hj
        rw [Function.update_of_ne hki] at hk
        exact h.apart hj hk
  owner := by
    intro r' hr'
    by_cases heq : r' = r
    · rw [heq, Function.update_self] at hr'
      cases hr'
    · rw [Function.update_of_ne heq] at hr'
      obtain ⟨j, hj⟩ := h.owner hr'
      have hji : j ≠ i := by
        rintro rfl
        exact heq (Option.some.inj (hj.symm.trans hi))
      exact ⟨j, by rw [Function.update_of_ne hji, hj]⟩

/-- The others find what they found before. -/
theorem Owned.found_release (h : Owned cells slot) (hi : slot i = some r) :
    found (Function.update cells r none) (Function.update slot i none) =
      Function.update (found cells slot) i none := by
  funext j
  by_cases hji : j = i
  · rw [hji, Function.update_self, found_of_none (Function.update_self ..)]
  · rw [Function.update_of_ne hji, found, found, Function.update_of_ne hji]
    cases hj : slot j with
    | none => rfl
    | some r' =>
      have hne : r' ≠ r := by
        rintro rfl
        exact hji (h.apart hj hi)
      rw [Option.bind_some, Option.bind_some, Function.update_of_ne hne]

/-- An owner passes on what it has to one without a slot. -/
theorem Owned.pass (h : Owned cells slot) (hij : i ≠ j) (hj : slot j = none) :
    Owned cells (Function.update (Function.update slot i none) j (slot i)) where
  taken := by
    intro k r hk
    by_cases hkj : k = j
    · rw [hkj, Function.update_self] at hk
      exact h.taken hk
    · rw [Function.update_of_ne hkj] at hk
      by_cases hki : k = i
      · rw [hki, Function.update_self] at hk
        cases hk
      · rw [Function.update_of_ne hki] at hk
        exact h.taken hk
  apart := by
    -- Read the new owner as the old one, and nothing has changed.
    have hold {k : ι} {r : ℕ}
        (hk : Function.update (Function.update slot i none) j (slot i) k = some r) :
        slot (if k = j then i else k) = some r ∧ k ≠ i := by
      by_cases hkj : k = j
      · rw [hkj, Function.update_self] at hk
        rw [if_pos hkj]
        exact ⟨hk, fun hki => hij (hki.symm.trans hkj)⟩
      · rw [Function.update_of_ne hkj] at hk
        rw [if_neg hkj]
        by_cases hki : k = i
        · rw [hki, Function.update_self] at hk
          cases hk
        · rw [Function.update_of_ne hki] at hk
          exact ⟨hk, hki⟩
    intro k l r hk hl
    obtain ⟨hk, hki⟩ := hold hk
    obtain ⟨hl, hli⟩ := hold hl
    have hsame := h.apart hk hl
    split_ifs at hsame with hkj hlj hlj
    · rw [hkj, hlj]
    · exact absurd hsame.symm hli
    · exact absurd hsame hki
    · exact hsame
  owner := by
    intro r hr
    obtain ⟨k, hk⟩ := h.owner hr
    by_cases hki : k = i
    · exact ⟨j, by rw [Function.update_self, ← hki, hk]⟩
    · have hkj : k ≠ j := by
        rintro rfl
        rw [hj] at hk
        cases hk
      exact ⟨k, by rw [Function.update_of_ne hkj, Function.update_of_ne hki, hk]⟩

/-- A slot that is passed on takes its cell along. -/
theorem found_pass :
    found cells (Function.update (Function.update slot i none) j (slot i)) =
      Function.update (Function.update (found cells slot) i none) j (found cells slot i) := by
  funext k
  by_cases hkj : k = j
  · rw [hkj, found, Function.update_self, Function.update_self, found]
  · rw [found, Function.update_of_ne hkj, Function.update_of_ne hkj]
    by_cases hki : k = i
    · rw [hki, Function.update_self, Function.update_self, Option.bind_none]
    · rw [Function.update_of_ne hki, Function.update_of_ne hki, found]

end Library
