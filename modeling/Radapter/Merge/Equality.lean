import Radapter.UnflattenOrder
import Radapter.Library.Assoc

/-!
# Equality of message trees

`QVariant::operator==` compares two lists item by item and two maps entry by entry. What it says of
two leaves is up to Qt, which compares numbers of two types after a conversion; so a tree may be
equal to one that it is not. This file has the comparison over any comparison of leaves, and what
assignments to the entries of equal maps do to them.
-/

namespace Radapter

open Library

/-! ## Leaves -/

namespace QVariant

mutual

/-- Every leaf of the tree has the property. -/
def EveryLeaf (p : Scalar → Prop) : QVariant → Prop
  | .leaf s => p s
  | .list items => EveryLeafList p items
  | .map entries => EveryLeafMap p entries

def EveryLeafList (p : Scalar → Prop) : List QVariant → Prop
  | [] => True
  | v :: rest => EveryLeaf p v ∧ EveryLeafList p rest

def EveryLeafMap (p : Scalar → Prop) : List (QString × QVariant) → Prop
  | [] => True
  | (_, v) :: rest => EveryLeaf p v ∧ EveryLeafMap p rest

end

/-- All leaves of a map are those of its values. -/
theorem everyLeafMap_iff {p : Scalar → Prop} {entries : List (QString × QVariant)} :
    EveryLeafMap p entries ↔ ∀ e ∈ entries, e.2.EveryLeaf p := by
  induction entries with
  | nil => simp [EveryLeafMap]
  | cons e rest ih => simp [EveryLeafMap, ih]

/-- No leaf is a NaN. -/
def NoNaN (v : QVariant) : Prop := v.EveryLeaf (fun s => s.isNaN = false)

/-! ## Trees -/

section Equals

-- what `operator==` says of two leaves
variable (eq : Scalar → Scalar → Bool)

mutual

/-- `QVariant::operator==`. -/
def equals : QVariant → QVariant → Bool
  | .leaf s, .leaf t => eq s t
  | .list l, .list m => equalsList l m
  | .map l, .map m => equalsMap l m
  | .leaf _, .list _ => false
  | .leaf _, .map _ => false
  | .list _, .leaf _ => false
  | .list _, .map _ => false
  | .map _, .leaf _ => false
  | .map _, .list _ => false

def equalsList : List QVariant → List QVariant → Bool
  | [], [] => true
  | [], _ :: _ => false
  | _ :: _, [] => false
  | v :: l, w :: m => equals v w && equalsList l m

def equalsMap : List (QString × QVariant) → List (QString × QVariant) → Bool
  | [], [] => true
  | [], _ :: _ => false
  | _ :: _, [] => false
  | (k, v) :: l, (j, w) :: m => k == j && equals v w && equalsMap l m

end

end Equals

variable {eq : Scalar → Scalar → Bool}

mutual

/-- A tree without a NaN equals itself, if other leaves do. -/
theorem equals_refl (hrefl : ∀ s, s.isNaN = false → eq s s = true) {v : QVariant}
    (hv : v.NoNaN) : equals eq v v = true := by
  cases v with
  | leaf s => exact hrefl s hv
  | list items => exact equalsList_refl hrefl hv
  | map entries => exact equalsMap_refl hrefl hv

/-- A list without NaN equals itself; induction on the items. -/
theorem equalsList_refl (hrefl : ∀ s, s.isNaN = false → eq s s = true) {items : List QVariant}
    (h : EveryLeafList (fun s => s.isNaN = false) items) : equalsList eq items items = true := by
  cases items with
  | nil => rfl
  | cons v rest =>
    rw [equalsList, Bool.and_eq_true]
    exact ⟨equals_refl hrefl h.1, equalsList_refl hrefl h.2⟩

/-- So does a map. -/
theorem equalsMap_refl (hrefl : ∀ s, s.isNaN = false → eq s s = true)
    {entries : List (QString × QVariant)}
    (h : EveryLeafMap (fun s => s.isNaN = false) entries) :
    equalsMap eq entries entries = true := by
  cases entries with
  | nil => rfl
  | cons e rest =>
    rw [equalsMap, Bool.and_eq_true, Bool.and_eq_true]
    exact ⟨⟨beq_self_eq_true e.1, equals_refl hrefl h.1⟩, equalsMap_refl hrefl h.2⟩

end

/-- Two entries with the same key and equal values. -/
def EqualEntries (eq : Scalar → Scalar → Bool) (e f : QString × QVariant) : Prop :=
  e.1 = f.1 ∧ equals eq e.2 f.2 = true

/-- Maps are equal if their entries are, one by one. -/
theorem equalsMap_iff_forall₂ {l m : List (QString × QVariant)} :
    equalsMap eq l m = true ↔ List.Forall₂ (EqualEntries eq) l m := by
  induction l generalizing m with
  | nil =>
    cases m with
    | nil => simp [equalsMap]
    | cons f m => simp [equalsMap]
  | cons e l ih =>
    cases m with
    | nil => simp [equalsMap]
    | cons f m =>
      rw [equalsMap, Bool.and_eq_true, Bool.and_eq_true, beq_iff_eq, ih, List.forall₂_cons,
        EqualEntries]

/-- What is found under a key in equal maps. -/
theorem equalsMap_lookup {l m : List (QString × QVariant)} (h : equalsMap eq l m = true)
    (k : QString) : (l.lookup k = none ∧ m.lookup k = none) ∨
      ∃ v w, l.lookup k = some v ∧ m.lookup k = some w ∧ equals eq v w = true := by
  rw [equalsMap_iff_forall₂] at h
  induction h with
  | nil => exact Or.inl ⟨rfl, rfl⟩
  | @cons e f l m hentry hrest ih =>
    rw [List.lookup_cons, List.lookup_cons, ← hentry.1]
    cases k == e.1 with
    | true => exact Or.inr ⟨e.2, f.2, rfl, rfl, hentry.2⟩
    | false => exact ih

/-- A key is removed from equal maps. -/
theorem equalsMap_erase {l m : List (QString × QVariant)} (h : equalsMap eq l m = true)
    (k : QString) : equalsMap eq (Assoc.erase k l) (Assoc.erase k m) = true := by
  rw [equalsMap_iff_forall₂] at h ⊢
  induction h with
  | nil => exact List.Forall₂.nil
  | cons hentry hrest ih =>
    rw [Assoc.erase, Assoc.erase, List.filter_cons, List.filter_cons, ← hentry.1]
    split_ifs
    · exact List.Forall₂.cons hentry ih
    · exact ih

end QVariant

/-! ## Entries of a map -/

/-- An assignment to an entry of a `QMap`: in place if it is there, else it is made where it
belongs. -/
def setEntry (key : QString) (value : QVariant) (entries : List (QString × QVariant)) :
    List (QString × QVariant) :=
  if (entries.lookup key).isSome then Assoc.put key value entries
  else updateEntry key (fun _ => value) entries

/-- The key has the new value. -/
theorem lookup_updateEntry_self (key : QString) (value : QVariant)
    (entries : List (QString × QVariant)) :
    (updateEntry key (fun _ => value) entries).lookup key = some value := by
  induction entries with
  | nil => simp [updateEntry]
  | cons e rest ih =>
    rw [updateEntry]
    split_ifs with hlt heq
    · simp
    · simp [heq]
    · have hne : (key == e.1) = false := by simpa using heq
      rw [List.lookup_cons, hne]
      exact ih

/-- Other keys keep theirs. -/
theorem lookup_updateEntry_ne {key other : QString} (h : other ≠ key) (value : QVariant)
    (entries : List (QString × QVariant)) :
    (updateEntry key (fun _ => value) entries).lookup other = entries.lookup other := by
  have hne : (other == key) = false := by simpa using h
  induction entries with
  | nil => simp [updateEntry, List.lookup_cons, hne]
  | cons e rest ih =>
    rw [updateEntry]
    split_ifs with hlt heq
    · rw [List.lookup_cons, hne]
    · rw [List.lookup_cons, List.lookup_cons, ← heq, hne]
    · rw [List.lookup_cons, List.lookup_cons, ih]

/-- The key has the value that was set. -/
@[simp] theorem lookup_setEntry_self (key : QString) (value : QVariant)
    (entries : List (QString × QVariant)) :
    (setEntry key value entries).lookup key = some value := by
  rw [setEntry]
  split_ifs
  · exact Assoc.lookup_put_self key value entries
  · exact lookup_updateEntry_self key value entries

/-- Other keys keep theirs. -/
@[simp] theorem lookup_setEntry_ne {key other : QString} (h : other ≠ key) (value : QVariant)
    (entries : List (QString × QVariant)) :
    (setEntry key value entries).lookup other = entries.lookup other := by
  rw [setEntry]
  split_ifs
  · exact Assoc.lookup_put_ne h value entries
  · exact lookup_updateEntry_ne h value entries

/-- An assignment of what is there changes nothing. -/
theorem setEntry_of_lookup {key : QString} {value : QVariant}
    {entries : List (QString × QVariant)} (h : entries.lookup key = some value) :
    setEntry key value entries = entries := by
  rw [setEntry, h, Option.isSome_some, if_pos rfl, Assoc.put_of_lookup h]

namespace QVariant

variable {eq : Scalar → Scalar → Bool}

/-- Equal values are put into equal maps. -/
private theorem equalsMap_put {l m : List (QString × QVariant)} (h : equalsMap eq l m = true)
    {v w : QVariant} (hvw : equals eq v w = true) (k : QString) :
    equalsMap eq (Assoc.put k v l) (Assoc.put k w m) = true := by
  rw [equalsMap_iff_forall₂] at h ⊢
  induction h with
  | nil => exact List.Forall₂.cons ⟨rfl, hvw⟩ List.Forall₂.nil
  | cons hentry hrest ih =>
    rw [Assoc.put, Assoc.put, ← hentry.1]
    split_ifs
    · exact List.Forall₂.cons ⟨rfl, hvw⟩ hrest
    · exact List.Forall₂.cons hentry ih

/-- So they are where the order of the keys is kept. -/
private theorem equalsMap_updateEntry {l m : List (QString × QVariant)}
    (h : equalsMap eq l m = true) {v w : QVariant} (hvw : equals eq v w = true) (k : QString) :
    equalsMap eq (updateEntry k (fun _ => v) l) (updateEntry k (fun _ => w) m) = true := by
  rw [equalsMap_iff_forall₂] at h ⊢
  induction h with
  | nil => exact List.Forall₂.cons ⟨rfl, hvw⟩ List.Forall₂.nil
  | cons hentry hrest ih =>
    rw [updateEntry, updateEntry, ← hentry.1]
    split_ifs
    · exact List.Forall₂.cons ⟨rfl, hvw⟩ (List.Forall₂.cons ⟨rfl, hentry.2⟩ hrest)
    · exact List.Forall₂.cons ⟨rfl, hvw⟩ hrest
    · exact List.Forall₂.cons ⟨rfl, hentry.2⟩ ih

/-- Equal values are assigned to entries of equal maps. -/
theorem equalsMap_setEntry {l m : List (QString × QVariant)} (h : equalsMap eq l m = true)
    {v w : QVariant} (hvw : equals eq v w = true) (k : QString) :
    equalsMap eq (setEntry k v l) (setEntry k w m) = true := by
  rw [setEntry, setEntry]
  rcases equalsMap_lookup h k with ⟨hl, hm⟩ | ⟨v', w', hl, hm, -⟩
  · rw [hl, hm]
    exact equalsMap_updateEntry h hvw k
  · rw [hl, hm]
    exact equalsMap_put h hvw k

end QVariant

end Radapter
