import Mathlib.Data.List.Basic
import Mathlib.Logic.Function.Basic

/-!
# Change detection

A state keeps the last value of every key, and an entry with another value is a change. The values
are compared with a test that need not be transitive, so that a key with three values may have
changes or not, whichever of them the state keeps. This file has what lists of entries change, when
they change nothing, and when they never stop.
-/

namespace Library

variable {κ ν : Type*} [DecidableEq κ] (eq : ν → ν → Bool)

/-- The state after an entry. -/
def note (s : κ → ν) (e : κ × ν) : κ → ν :=
  if eq (s e.1) e.2 then s else Function.update s e.1 e.2

/-- The entries that are changes in the state that they meet. -/
def changes : (κ → ν) → List (κ × ν) → List (κ × ν)
  | _, [] => []
  | s, e :: rest => if eq (s e.1) e.2 then changes s rest else e :: changes (note eq s e) rest

variable {eq} {s : κ → ν} {e : κ × ν} {k : κ}

/-! ## Entries -/

/-- An entry that is no change leaves the state. -/
theorem note_of_eq (h : eq (s e.1) e.2 = true) : note eq s e = s := if_pos h

/-- A change sets its key. -/
theorem note_of_ne (h : eq (s e.1) e.2 = false) : note eq s e = Function.update s e.1 e.2 := by
  simp [note, h]

/-- An entry leaves the other keys alone. -/
theorem note_other (h : e.1 ≠ k) : note eq s e k = s k := by
  rw [note]
  split_ifs
  · rfl
  · exact Function.update_of_ne h.symm e.2 s

/-- What an entry leaves under its key depends on the value there. -/
theorem note_congr {s' : κ → ν} (h : s e.1 = s' e.1) : note eq s e e.1 = note eq s' e e.1 := by
  rw [note, note, ← h]
  split_ifs
  · exact h
  · rw [Function.update_self, Function.update_self]

/-- A key keeps its value or gets that of the entry. -/
theorem note_eq_or (eq : ν → ν → Bool) (s : κ → ν) (e : κ × ν) (k : κ) :
    note eq s e k = s k ∨ e = (k, note eq s e k) := by
  by_cases hkey : e.1 = k
  · subst hkey
    rw [note]
    split_ifs
    · exact Or.inl rfl
    · right
      rw [Function.update_self]
  · exact Or.inl (note_other hkey)

/-! ## Lists of entries -/

/-- The entries behind are compared with the state that those in front leave. -/
theorem changes_append (s : κ → ν) (front back : List (κ × ν)) :
    changes eq s (front ++ back) =
      changes eq s front ++ changes eq (front.foldl (note eq) s) back := by
  induction front generalizing s with
  | nil => rfl
  | cons e rest ih =>
    rw [List.cons_append, changes, changes, List.foldl_cons]
    split_ifs with heq
    · rw [note_of_eq heq]
      exact ih s
    · rw [List.cons_append, ih]

/-- The changes are among the entries. -/
theorem changes_sublist (s : κ → ν) (entries : List (κ × ν)) :
    (changes eq s entries).Sublist entries := by
  induction entries generalizing s with
  | nil => exact List.Sublist.refl _
  | cons e rest ih =>
    rw [changes]
    split_ifs
    · exact (ih s).cons e
    · exact (ih _).cons_cons e

/-- Nothing changes when the state has an equal value for every entry. -/
theorem changes_eq_nil_iff {entries : List (κ × ν)} :
    changes eq s entries = [] ↔ ∀ e ∈ entries, eq (s e.1) e.2 = true := by
  induction entries with
  | nil => simp [changes]
  | cons e rest ih =>
    rw [changes, List.forall_mem_cons]
    split_ifs with heq
    · simp only [heq, true_and]
      exact ih
    · simp [heq]

/-- Entries with other keys leave a key alone. -/
theorem foldl_note_other {entries : List (κ × ν)} (h : ∀ e ∈ entries, e.1 ≠ k) :
    entries.foldl (note eq) s k = s k := by
  induction entries generalizing s with
  | nil => rfl
  | cons e rest ih =>
    obtain ⟨hkey, hrest⟩ := List.forall_mem_cons.mp h
    rw [List.foldl_cons, ih hrest, note_other hkey]

/-- If no two entries have one key, each meets the value that its key starts with. -/
theorem foldl_note_of_nodup {entries : List (κ × ν)} (hkeys : (entries.map Prod.fst).Nodup)
    (he : e ∈ entries) : entries.foldl (note eq) s e.1 = note eq s e e.1 := by
  induction entries generalizing s with
  | nil => cases he
  | cons first rest ih =>
    rw [List.map_cons, List.nodup_cons] at hkeys
    rw [List.foldl_cons]
    rcases List.mem_cons.mp he with rfl | hmem
    · have hfresh : ∀ e' ∈ rest, e'.1 ≠ e.1 := by
        intro e' he' heq
        exact hkeys.1 (heq ▸ List.mem_map_of_mem he')
      rw [foldl_note_other hfresh]
    · have hother : first.1 ≠ e.1 := fun heq => hkeys.1 (heq ▸ List.mem_map_of_mem hmem)
      rw [ih hkeys.2 hmem, note_congr (note_other hother)]

/-- With distinct keys each entry is compared with the first state. -/
theorem mem_changes_iff_of_nodup {entries : List (κ × ν)} (hkeys : (entries.map Prod.fst).Nodup) :
    e ∈ changes eq s entries ↔ e ∈ entries ∧ eq (s e.1) e.2 = false := by
  induction entries generalizing s with
  | nil => simp [changes]
  | cons first rest ih =>
    rw [List.map_cons, List.nodup_cons] at hkeys
    rw [changes, List.mem_cons]
    split_ifs with heq
    · rw [ih hkeys.2]
      constructor
      · rintro ⟨hmem, hne⟩
        exact ⟨Or.inr hmem, hne⟩
      · rintro ⟨rfl | hmem, hne⟩
        · rw [heq] at hne
          cases hne
        · exact ⟨hmem, hne⟩
    · have hkeep (hmem : e ∈ rest) : note eq s first e.1 = s e.1 :=
        note_other fun heq => hkeys.1 (heq ▸ List.mem_map_of_mem hmem)
      rw [List.mem_cons, ih hkeys.2]
      constructor
      · rintro (rfl | ⟨hmem, hne⟩)
        · exact ⟨Or.inl rfl, Bool.eq_false_iff.mpr heq⟩
        · rw [hkeep hmem] at hne
          exact ⟨Or.inr hmem, hne⟩
      · rintro ⟨rfl | hmem, hne⟩
        · exact Or.inl rfl
        · rw [← hkeep hmem] at hne
          exact Or.inr ⟨hmem, hne⟩

/-! ## When the changes stop -/

section Values

-- the entries that come again and again
variable {values : κ × ν → Prop} {absent : ν}

/-- The state keeps one of the values under every key that it has. -/
def KeepsValues (absent : ν) (values : κ × ν → Prop) (s : κ → ν) : Prop :=
  ∀ k, s k = absent ∨ values (k, s k)

/-- A key that an entry has noted has one of the values. -/
theorem values_note (hs : values (k, s k)) (he : values e) : values (k, note eq s e k) := by
  rcases note_eq_or eq s e k with hkeep | hnew
  · rwa [hkeep]
  · rwa [← hnew]

/-- An entry with one of the values keeps the state among them. -/
theorem KeepsValues.note (hs : KeepsValues absent values s) (he : values e) :
    KeepsValues absent values (note eq s e) := by
  intro k
  rcases note_eq_or eq s e k with hkeep | hnew
  · rw [hkeep]
    exact hs k
  · right
    rwa [← hnew]

/-- So do any number of entries. -/
theorem KeepsValues.foldl (hs : KeepsValues absent values s) {entries : List (κ × ν)}
    (hall : ∀ e ∈ entries, values e) :
    KeepsValues absent values (entries.foldl (Library.note eq) s) := by
  induction entries generalizing s with
  | nil => exact hs
  | cons first rest ih =>
    obtain ⟨hfirst, hrest⟩ := List.forall_mem_cons.mp hall
    exact ih (hs.note hfirst) hrest

/-- After an entry its key has one of the values. -/
theorem KeepsValues.noted (habsent : ∀ e, values e → eq absent e.2 = false)
    (hs : KeepsValues absent values s) (he : values e) : values (e.1, Library.note eq s e e.1) := by
  by_cases heq : eq (s e.1) e.2 = true
  · rw [note_of_eq heq]
    refine (hs e.1).resolve_left fun hmissing => ?_
    rw [hmissing, habsent e he] at heq
    cases heq
  · rw [note_of_ne (Bool.eq_false_iff.mpr heq), Function.update_self]
    exact he

/-- After some entries their keys have values. -/
theorem KeepsValues.foldl_note (habsent : ∀ e, values e → eq absent e.2 = false)
    (hs : KeepsValues absent values s) {entries : List (κ × ν)} (hall : ∀ e ∈ entries, values e)
    (hk : values (k, s k) ∨ ∃ e ∈ entries, e.1 = k) :
    values (k, entries.foldl (Library.note eq) s k) := by
  induction entries generalizing s with
  | nil =>
    rcases hk with hk | ⟨e, he, -⟩
    · exact hk
    · cases he
  | cons first rest ih =>
    obtain ⟨hfirst, hrest⟩ := List.forall_mem_cons.mp hall
    refine ih (hs.note hfirst) hrest ?_
    rcases hk with hk | ⟨e, he, rfl⟩
    · exact Or.inl (values_note hk hfirst)
    rcases List.mem_cons.mp he with rfl | hmem
    · exact Or.inl (hs.noted habsent hfirst)
    · exact Or.inr ⟨e, hmem, rfl⟩

/-- Once all keys have been noted nothing changes any more, if the values of a key are equal. -/
theorem changes_eq_nil_of_noted (habsent : ∀ e, values e → eq absent e.2 = false)
    (hagree : ∀ e e', values e → values e' → e.1 = e'.1 → eq e.2 e'.2 = true)
    {first later : List (κ × ν)} (hfirst : ∀ e ∈ first, values e)
    (hlater : ∀ e ∈ later, values e ∧ ∃ e' ∈ first, e'.1 = e.1) :
    changes eq (first.foldl (note eq) (fun _ => absent)) later = [] := by
  rw [changes_eq_nil_iff]
  intro e he
  obtain ⟨hvalue, hnoted⟩ := hlater e he
  have hstart : KeepsValues absent values (fun _ => absent) := fun _ => Or.inl rfl
  exact hagree _ _ (hstart.foldl_note habsent hfirst (Or.inr hnoted)) hvalue rfl

/-! ## When they never stop -/

/-- Some key has a value that differs from another of its values. -/
def Restless (eq : ν → ν → Bool) (values : κ × ν → Prop) (s : κ → ν) : Prop :=
  ∃ k v, values (k, s k) ∧ values (k, v) ∧ eq (s k) v = false

/-- A key whose values differ stays so, whichever of them it was noted with. -/
theorem Restless.note (hsymm : ∀ v w, eq v w = eq w v) (hs : Restless eq values s)
    (he : values e) : Restless eq values (note eq s e) := by
  obtain ⟨k, v, hold, hv, hne⟩ := hs
  rcases note_eq_or eq s e k with hkeep | hnew
  · exact ⟨k, v, by rwa [hkeep], hv, by rwa [hkeep]⟩
  · have hkey : k = e.1 := by rw [hnew]
    by_cases heq : eq (s e.1) e.2 = true
    · rw [note_of_eq heq]
      exact ⟨k, v, hold, hv, hne⟩
    · -- the value that was kept is now the other one
      refine ⟨k, s k, by rwa [← hnew], hold, ?_⟩
      rw [hkey, note_of_ne (Bool.eq_false_iff.mpr heq), Function.update_self, hsymm]
      exact Bool.eq_false_iff.mpr heq

/-- So it does over any number of entries. -/
theorem Restless.foldl_note (hsymm : ∀ v w, eq v w = eq w v) (hs : Restless eq values s)
    {entries : List (κ × ν)} (hall : ∀ e ∈ entries, values e) :
    Restless eq values (entries.foldl (Library.note eq) s) := by
  induction entries generalizing s with
  | nil => exact hs
  | cons e rest ih =>
    obtain ⟨he, hrest⟩ := List.forall_mem_cons.mp hall
    exact ih (hs.note hsymm he) hrest

/-- A list of all the values changes a restless state. -/
theorem Restless.changes_ne_nil (hs : Restless eq values s) {entries : List (κ × ν)}
    (hall : ∀ e, values e → e ∈ entries) : changes eq s entries ≠ [] := by
  obtain ⟨k, v, -, hv, hne⟩ := hs
  intro hnil
  have heq : eq (s k) v = true := changes_eq_nil_iff.mp hnil _ (hall (k, v) hv)
  rw [heq] at hne
  cases hne

end Values

end Library
