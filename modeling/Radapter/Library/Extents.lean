import Mathlib.Data.List.SplitBy
import Mathlib.Algebra.BigOperators.Group.List.Basic
import Mathlib.Tactic.Ring

/-!
# Extents

Items that take consecutive addresses, from their start on. Items are apart when no address is in
two of them. A list of items that are apart and sorted by their starts falls into runs: items that
touch, with a gap before the next run. The items of a run take the addresses from its start up to
its stop, and the address at the stop is free.
-/

namespace Library

/-- Items that start at an address and take at least one. -/
class Extent (ρ : Type*) where
  start : ρ → ℤ
  size : ρ → ℕ
  size_pos : ∀ r, 0 < size r

namespace Extent

variable {ρ : Type*} [Extent ρ]

/-- The first address behind an item. -/
def stop (r : ρ) : ℤ := start r + size r

/-- An address is one of the item. -/
def Takes (r : ρ) (a : ℤ) : Prop := start r ≤ a ∧ a < stop r

instance (r : ρ) (a : ℤ) : Decidable (Takes r a) := inferInstanceAs (Decidable (_ ∧ _))

/-- An address is one of some item. -/
def Taken (l : List ρ) (a : ℤ) : Prop := ∃ r ∈ l, Takes r a

instance (l : List ρ) (a : ℤ) : Decidable (Taken l a) :=
  inferInstanceAs (Decidable (∃ r ∈ l, Takes r a))

/-- No address is in both items. -/
def Apart (r s : ρ) : Prop := stop r ≤ start s ∨ stop s ≤ start r

instance (r s : ρ) : Decidable (Apart r s) := inferInstanceAs (Decidable (_ ∨ _))

/-- To be apart is mutual. -/
theorem Apart.symm {r s : ρ} (h : Apart r s) : Apart s r := Or.symm h

/-- Every item takes its first address. -/
theorem start_lt_stop (r : ρ) : start r < stop r := by
  have hpos := size_pos r
  rw [stop]
  omega

/-- Two items are apart if neither starts in the other one. -/
theorem apart_iff {r s : ρ} : Apart r s ↔ ¬ Takes r (start s) ∧ ¬ Takes s (start r) := by
  have hr := start_lt_stop r
  have hs := start_lt_stop s
  rw [Apart, Takes, Takes]
  omega

/-- The order of a list does not matter for its items to be apart. -/
theorem apart_perm {l m : List ρ} (h : l.Perm m) : l.Pairwise Apart ↔ m.Pairwise Apart :=
  h.pairwise_iff Apart.symm

/-- Items one behind the other. -/
def Before (r s : ρ) : Prop := stop r ≤ start s

instance (r s : ρ) : Decidable (Before r s) := inferInstanceAs (Decidable (_ ≤ _))

/-- Items that are apart stand one behind the other when they are sorted by their starts. -/
theorem before_of_apart {l : List ρ} (hsorted : l.Pairwise (fun r s => start r < start s))
    (hapart : l.Pairwise Apart) : l.Pairwise Before := by
  refine hsorted.imp₂ ?_ hapart
  intro r s hlt h
  have hs := start_lt_stop s
  rcases h with h | h
  · exact h
  · omega

/-! ## Runs -/

/-- The second item starts where the first one stops. -/
def touches (r s : ρ) : Bool := start s = stop r

/-- Two items touch if the second starts where the first stops. -/
@[simp] theorem touches_iff {r s : ρ} : touches r s = true ↔ start s = stop r := decide_eq_true_iff

/-- The number of addresses that the items take, if they are apart. -/
def total (l : List ρ) : ℕ := (l.map size).sum

/-- No items take no addresses. -/
@[simp] theorem total_nil : total ([] : List ρ) = 0 := rfl

/-- An item adds its size. -/
@[simp] theorem total_cons (r : ρ) (l : List ρ) : total (r :: l) = size r + total l := rfl

/-- The sizes of two lists add up. -/
@[simp] theorem total_append (l m : List ρ) : total (l ++ m) = total l + total m := by
  simp [total]

/-- The items of a run take the addresses from its start on, as many as their sizes add up to. -/
theorem taken_chain {r : ρ} {l : List ρ} (h : (r :: l).IsChain (fun r s => touches r s = true))
    (a : ℤ) : Taken (r :: l) a ↔ start r ≤ a ∧ a < start r + total (r :: l) := by
  induction l generalizing r with
  | nil => simp [Taken, Takes, stop]
  | cons s l ih =>
    obtain ⟨htouch, hrest⟩ := List.isChain_cons_cons.mp h
    have hsplit : Taken (r :: s :: l) a ↔ Takes r a ∨ Taken (s :: l) a := by
      rw [Taken, List.exists_mem_cons_iff]
      rfl
    rw [touches_iff, stop] at htouch
    rw [hsplit, ih hrest, Takes, stop, total_cons r, htouch]
    have hr := size_pos r
    have hs := size_pos s
    rw [total_cons]
    push_cast
    omega

/-- The last item of a run stops where the run does. -/
theorem stop_chain {r : ρ} {l : List ρ} (h : (r :: l).IsChain (fun r s => touches r s = true)) :
    stop ((r :: l).getLast (List.cons_ne_nil r l)) = start r + total (r :: l) := by
  induction l generalizing r with
  | nil => simp [stop]
  | cons s l ih =>
    obtain ⟨htouch, hrest⟩ := List.isChain_cons_cons.mp h
    rw [touches_iff, stop] at htouch
    rw [List.getLast_cons (List.cons_ne_nil s l), ih hrest, total_cons r, htouch]
    push_cast
    ring

/-- The items of a run lie between its start and its stop. -/
theorem bounds_of_mem_chain {g : List ρ} (h : g.IsChain (fun r s => touches r s = true))
    (hg : g ≠ [])
    {s : ρ} (hs : s ∈ g) : start (g.head hg) ≤ start s ∧ stop s ≤ stop (g.getLast hg) := by
  cases g with
  | nil => cases hs
  | cons r l =>
    have hlt := start_lt_stop s
    have hfirst := (taken_chain h (start s)).mp ⟨s, hs, le_refl _, hlt⟩
    have hlast := (taken_chain h (stop s - 1)).mp ⟨s, hs, by omega, by omega⟩
    rw [stop_chain h, List.head_cons]
    omega

section Split

variable {l : List ρ} (h : l.Pairwise Before)

include h

/-- Items of different runs stand one behind the other. -/
theorem before_splitBy :
    (l.splitBy touches).Pairwise (fun g g' => ∀ r ∈ g, ∀ s ∈ g', Before r s) := by
  have hflat : (l.splitBy touches).flatten.Pairwise Before := by
    rw [List.flatten_splitBy]
    exact h
  exact (List.pairwise_flatten.mp hflat).2

/-- Runs follow one another with a gap. -/
theorem gap_splitBy : (l.splitBy touches).IsChain (fun g g' => ∃ hg hg',
    stop (g.getLast hg) < start (g'.head hg')) := by
  rw [List.isChain_iff_forall_rel_of_append_cons_cons]
  intro g g' before after hsplit
  obtain ⟨hg, hg', hno⟩ := List.isChain_iff_forall_rel_of_append_cons_cons.mp
    (List.isChain_getLast_head_splitBy touches l) hsplit
  have hbetween := before_splitBy h
  rw [hsplit] at hbetween
  have hbefore := (List.pairwise_cons.mp (List.pairwise_append.mp hbetween).2.1).1 g'
    List.mem_cons_self _ (List.getLast_mem hg) _ (List.head_mem hg')
  rw [← Bool.not_eq_true, touches_iff] at hno
  rw [Before] at hbefore
  exact ⟨hg, hg', by omega⟩

/-- The address at the stop of a run is free. -/
theorem free_stop {g : List ρ} (hmem : g ∈ l.splitBy touches) (hg : g ≠ []) :
    ¬ Taken l (stop (g.getLast hg)) := by
  rintro ⟨s, hs, hstart, hstop⟩
  obtain ⟨before, after, hsplit⟩ := List.append_of_mem hmem
  have hlast := start_lt_stop (g.getLast hg)
  have hbetween := before_splitBy h
  have hgap := gap_splitBy h
  rw [hsplit] at hbetween hgap
  obtain ⟨-, hback, hfront⟩ := List.pairwise_append.mp hbetween
  rw [← List.flatten_splitBy touches l, hsplit, List.flatten_append, List.flatten_cons,
    List.mem_append, List.mem_append] at hs
  rcases hs with hs | hs | hs
  · -- an item of an earlier run stops before
    obtain ⟨g', hg', hs⟩ := List.mem_flatten.mp hs
    have hbefore := hfront g' hg' g List.mem_cons_self s hs _ (List.getLast_mem hg)
    rw [Before] at hbefore
    omega
  · have hbounds := bounds_of_mem_chain (List.isChain_of_mem_splitBy hmem) hg hs
    omega
  · -- an item of a later run starts behind the gap
    cases after with
    | nil => cases hs
    | cons next later =>
      obtain ⟨_, hnext, hlt⟩ := List.isChain_iff_forall_rel_of_append_cons_cons.mp hgap rfl
      have hnextMem : next ∈ l.splitBy touches := by
        rw [hsplit]
        simp
      rw [List.flatten_cons, List.mem_append] at hs
      rcases hs with hs | hs
      · have hbounds := bounds_of_mem_chain (List.isChain_of_mem_splitBy hnextMem) hnext hs
        omega
      · obtain ⟨g', hg', hs⟩ := List.mem_flatten.mp hs
        have hbefore := (List.pairwise_cons.mp (List.pairwise_cons.mp hback).2).1 g' hg' _
          (List.head_mem hnext) s hs
        have hhead := start_lt_stop (next.head hnext)
        rw [Before] at hbefore
        omega

end Split

/-- What is taken by a list of items is taken by one of its runs. -/
theorem taken_splitBy {l : List ρ} {a : ℤ} (h : Taken l a) :
    ∃ g ∈ l.splitBy touches, Taken g a := by
  obtain ⟨r, hr, ha⟩ := h
  rw [← List.flatten_splitBy touches l] at hr
  obtain ⟨g, hg, hr⟩ := List.mem_flatten.mp hr
  exact ⟨g, hg, r, hr, ha⟩

end Extent

end Library
