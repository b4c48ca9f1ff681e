import Radapter.Library.Assoc
import Mathlib.Data.List.Sort

/-!
# Sorted maps

A finite map as the list of its entries in ascending order of the keys, the order in which it is
traversed. Two sorted maps in which the same is found under every key are the same list.
-/

namespace Library.Sorted

variable {κ β : Type*} [LT κ]

/-- The keys are strictly ascending. -/
def Ascending (entries : List (κ × β)) : Prop := entries.Pairwise fun e f => e.1 < f.1

variable [DecidableEq κ] [DecidableLT κ]

/-- Store a value where its key belongs. -/
def assign (k : κ) (v : β) : List (κ × β) → List (κ × β)
  | [] => [(k, v)]
  | e :: rest =>
      if k < e.1 then (k, v) :: e :: rest
      else if k = e.1 then (k, v) :: rest
      else e :: assign k v rest

/-- To assign adds at most one key. -/
theorem mem_keys_assign {k j : κ} {v : β} {entries : List (κ × β)} :
    j ∈ (assign k v entries).map Prod.fst ↔ j = k ∨ j ∈ entries.map Prod.fst := by
  induction entries with
  | nil => simp [assign]
  | cons e rest ih =>
    rw [assign]
    split_ifs with hlt heq
    · simp
    · simp [heq]
    · rw [List.map_cons, List.mem_cons, ih, List.map_cons, List.mem_cons]
      tauto

section Lookup

variable [BEq κ] [LawfulBEq κ]

/-- What was assigned is found. -/
theorem lookup_assign_self (k : κ) (v : β) (entries : List (κ × β)) :
    (assign k v entries).lookup k = some v := by
  induction entries with
  | nil => simp [assign]
  | cons e rest ih =>
    rw [assign]
    split_ifs with hlt heq
    · simp
    · simp
    · have hne : (k == e.1) = false := by simpa using heq
      rw [List.lookup_cons, hne]
      exact ih

/-- Other keys keep their values. -/
theorem lookup_assign_ne {k j : κ} (h : j ≠ k) (v : β) (entries : List (κ × β)) :
    (assign k v entries).lookup j = entries.lookup j := by
  have hne : (j == k) = false := by simpa using h
  induction entries with
  | nil => simp [assign, List.lookup_cons, hne]
  | cons e rest ih =>
    rw [assign]
    split_ifs with hlt heq
    · rw [List.lookup_cons, hne]
    · rw [List.lookup_cons, List.lookup_cons, ← heq, hne]
    · rw [List.lookup_cons, List.lookup_cons, ih]

end Lookup

section Order

variable [IsTrans κ (· < ·)] [@Std.Trichotomous κ (· < ·)]

/-- Storing a value keeps the keys ascending. -/
theorem ascending_assign {entries : List (κ × β)} (h : Ascending entries) (k : κ) (v : β) :
    Ascending (assign k v entries) := by
  induction entries with
  | nil => exact List.pairwise_singleton _ _
  | cons e rest ih =>
    obtain ⟨hfirst, hrest⟩ := List.pairwise_cons.mp h
    rw [assign]
    split_ifs with hlt heq
    · refine List.pairwise_cons.mpr ⟨?_, h⟩
      intro f hf
      rcases List.mem_cons.mp hf with rfl | hf
      · exact hlt
      · exact trans_of (· < ·) hlt (hfirst f hf)
    · refine List.pairwise_cons.mpr ⟨fun f hf => ?_, hrest⟩
      rw [heq]
      exact hfirst f hf
    · refine List.pairwise_cons.mpr ⟨fun f hf => ?_, ih hrest⟩
      have hkey := mem_keys_assign.mp (List.mem_map_of_mem hf)
      rcases hkey with hkey | hkey
      · rw [hkey]
        by_contra hnot
        exact heq (Std.Trichotomous.trichotomous k e.1 hlt hnot)
      · obtain ⟨g, hg, hgf⟩ := List.mem_map.mp hkey
        rw [← hgf]
        exact hfirst g hg

end Order

variable [@Std.Irrefl κ (· < ·)]

omit [DecidableEq κ] [DecidableLT κ] in
/-- Ascending keys are distinct. -/
theorem Ascending.distinct {entries : List (κ × β)} (h : Ascending entries) :
    Assoc.Distinct entries := by
  refine List.pairwise_map.mpr (h.imp ?_)
  intro e f hlt heq
  rw [heq] at hlt
  exact Std.Irrefl.irrefl f.1 hlt

omit [DecidableEq κ] [DecidableLT κ] in
/-- A sorted map is known by what is found in it. -/
theorem Ascending.ext [BEq κ] [LawfulBEq κ] [IsTrans κ (· < ·)] {entries other : List (κ × β)}
    (h : Ascending entries) (hother : Ascending other)
    (hlookup : ∀ k, entries.lookup k = other.lookup k) :
    entries = other := by
  have hmem : ∀ e, e ∈ entries ↔ e ∈ other := by
    intro e
    rw [← Assoc.lookup_eq_some_iff_mem h.distinct,
      ← Assoc.lookup_eq_some_iff_mem hother.distinct, hlookup]
  have hirrefl : Std.Irrefl fun e f : κ × β => e.1 < f.1 := ⟨fun e => Std.Irrefl.irrefl e.1⟩
  have hantisymm : Std.Antisymm fun e f : κ × β => e.1 < f.1 :=
    ⟨fun e f hef hfe => absurd (trans_of (· < ·) hef hfe) (Std.Irrefl.irrefl e.1)⟩
  exact List.Pairwise.eq_of_mem_iff h hother hmem

end Library.Sorted
