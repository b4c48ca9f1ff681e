import Radapter.Lua.LevelsBack

/-!
# What comes back from Lua

`forwarded` is the message that a table becomes again after a message was pushed as it: nulls are
dropped from maps, a list ends before its first null, a list without a first value becomes a map of
its indices, and numbers have the types of Lua's numbers. That holds for every order of the fields.
-/

namespace Radapter.Lua

open Library

/-- The scalar with a number in the type of Lua's numbers. -/
def luaTyped (fl : Floats) : Scalar → Scalar
  | .int n => .longlong (n.signExtend 64)
  | .uint n => .longlong (n.zeroExtend 64)
  | .float bits => .double (fl.widen bits)
  | s => s

/-- The scalar that the value of a scalar becomes again. -/
def forwardedScalar (fl : Floats) : Scalar → Scalar
  | .string q => toStrOrBinary (toStdString q)
  | s => luaTyped fl s

mutual

/-- The message that the table of a message becomes again. -/
def forwarded (fl : Floats) : QVariant → QVariant
  | .leaf s => .leaf (forwardedScalar fl s)
  | .map entries => .map (forwardedMap fl entries)
  | .list items =>
      if noFirst items then .map (forwardedHoles fl 1 [] items) else .list (forwardedList fl items)

/-- The entries of a map without its nulls. -/
def forwardedMap (fl : Floats) : List (QString × QVariant) → List (QString × QVariant)
  | [] => []
  | (k, v) :: rest =>
      if v.isValid then (k, forwarded fl v) :: forwardedMap fl rest else forwardedMap fl rest

/-- The items of a list before its first null. -/
def forwardedList (fl : Floats) : List QVariant → List QVariant
  | [] => []
  | v :: rest => if v.isValid then forwarded fl v :: forwardedList fl rest else []

/-- The items of a list without a first value, under the texts of their indices. -/
def forwardedHoles (fl : Floats) (i : ℕ) (entries : List (QString × QVariant)) :
    List QVariant → List (QString × QVariant)
  | [] => entries
  | v :: rest =>
      forwardedHoles fl (i + 1)
        (if v.isValid then updateEntry (integerText i) (fun _ => forwarded fl v) entries
        else entries) rest

end

/-- A map comes back without its nulls, entry by entry. -/
theorem forwardedMap_eq (fl : Floats) (entries : List (QString × QVariant)) :
    forwardedMap fl entries =
      (entries.filter (fun e => e.2.isValid)).map (fun e => (e.1, forwarded fl e.2)) := by
  induction entries with
  | nil => rfl
  | cons e entries ih =>
    rw [forwardedMap, ih]
    by_cases hv : e.2.isValid = true
    · rw [if_pos hv, List.filter_cons, if_pos hv, List.map_cons]
    · rw [if_neg hv, List.filter_cons, if_neg hv]

/-- A list comes back as far as its first null. -/
theorem forwardedList_eq (fl : Floats) (items : List QVariant) :
    forwardedList fl items = (items.takeWhile QVariant.isValid).map (forwarded fl) := by
  induction items with
  | nil => rfl
  | cons v items ih =>
    rw [forwardedList, ih]
    by_cases hv : v.isValid = true
    · rw [if_pos hv, List.takeWhile_cons_of_pos hv, List.map_cons]
    · rw [if_neg hv, List.takeWhile_cons_of_neg hv, List.map_nil]

/-- A list without a first value comes back as a map of what is not null. -/
theorem forwardedHoles_eq (fl : Floats) (i : ℕ) (entries : List (QString × QVariant))
    (items : List QVariant) : forwardedHoles fl i entries items =
      (((items.zipIdx i).filter (fun e => e.1.isValid)).map fun e =>
        (LuaKey.integer (e.2 : ℤ), (.ok (forwarded fl e.1) : Conversion))).foldl
          (insertField fl) entries := by
  induction items generalizing i entries with
  | nil => rfl
  | cons v items ih =>
    rw [forwardedHoles, ih, List.zipIdx_cons]
    by_cases hv : v.isValid = true
    · rw [if_pos hv, List.filter_cons, if_pos hv, List.map_cons, List.foldl_cons]
      rfl
    · rw [if_neg hv, List.filter_cons, if_neg hv]

mutual

/-- The keys of every map are texts that come back. -/
def KeysKept : QVariant → Prop
  | .leaf _ => True
  | .list items => KeysKeptList items
  | .map entries => KeysKeptMap entries

/-- The keys in the items of a list come back. -/
def KeysKeptList : List QVariant → Prop
  | [] => True
  | v :: rest => KeysKept v ∧ KeysKeptList rest

/-- The keys of a map and those in its values come back. -/
def KeysKeptMap : List (QString × QVariant) → Prop
  | [] => True
  | (k, v) :: rest => TextKept k ∧ KeysKept v ∧ KeysKeptMap rest

end

/-- The keys of a list come back if those of each item do. -/
theorem keysKeptList_iff {items : List QVariant} :
    KeysKeptList items ↔ ∀ v ∈ items, KeysKept v := by
  induction items with
  | nil => simp [KeysKeptList]
  | cons v rest ih => simp [KeysKeptList, ih]

/-- The keys of a map come back if each does, with those of its value. -/
theorem keysKeptMap_iff {entries : List (QString × QVariant)} :
    KeysKeptMap entries ↔ ∀ e ∈ entries, TextKept e.1 ∧ KeysKept e.2 := by
  induction entries with
  | nil => simp [KeysKeptMap]
  | cons e rest ih => simp [KeysKeptMap, ih, and_assoc]

/-- The value of a scalar is no table, so it has one order only. -/
theorem Reordered.eq_pushScalar {fl : Floats} {s : Scalar} {t : LuaValue}
    (h : Reordered (pushScalar fl s) t) : t = pushScalar fl s := by
  apply (reordered_iff_of_not_table ?_).mp h
  cases s <;> rfl

/-- A scalar comes back with its number in the type of Lua's. -/
theorem toQVar_pushScalar (fl : Floats) (lazy : ℕ → Path → Conversion) (room : ℕ) (s : Scalar) :
    toQVar fl lazy room (pushScalar fl s) = .ok (.leaf (forwardedScalar fl s)) := by
  cases s <;> rfl

/-- The entries of a map that are not null are in ascending order too. -/
theorem sorted_valid {entries : List (QString × QVariant)}
    (h : (entries.map Prod.fst).Pairwise (· < ·)) :
    ((entries.filter (fun e => e.2.isValid)).map Prod.fst).Pairwise (· < ·) :=
  h.sublist (List.filter_sublist.map Prod.fst)

/-- An item that is not null is an item. -/
theorem fst_mem_of_validItems {items : List QVariant} {e : QVariant × ℕ}
    (h : e ∈ validItems items) : e.1 ∈ items := by
  obtain ⟨j, hitem, -⟩ := mem_validItems.mp h
  exact List.mem_of_getElem? hitem

/-- The values in the table of a list are no `nil`. -/
theorem push_validItems_ne_nil (fl : Floats) {items : List QVariant} {e : QVariant × ℕ}
    (h : e ∈ validItems items) : Push fl e.1 ≠ .nil := by
  obtain ⟨j, -, -, hv⟩ := mem_validItems.mp h
  rw [ne_eq, push_eq_nil_iff]
  exact hv

/-- The table of a message becomes `forwarded`, for every order of its fields. -/
theorem toQVar_forwarded (fl : Floats) (lazy : ℕ → Path → Conversion) {v : QVariant}
    (hsorted : v.Ascending) (hkeys : KeysKept v) {room : ℕ} (hfits : Fits room v) {t : LuaValue}
    (ht : Reordered (Push fl v) t) : toQVar fl lazy room t = .ok (forwarded fl v) := by
  induction v using QVariant.memInduction generalizing room t with
  | leaf s =>
    rw [Push] at ht
    rw [ht.eq_pushScalar, toQVar_pushScalar, forwarded]
  | map entries ih =>
    rw [QVariant.Ascending, QVariant.ascendingMap_iff] at hsorted
    rw [KeysKept, keysKeptMap_iff] at hkeys
    rw [Fits, fitsMap_iff] at hfits
    rw [push_map fl hsorted.1 (fun e he => (hkeys e he).1)] at ht
    rw [forwarded, forwardedMap_eq]
    refine toQVar_map_ok fl lazy (sorted_valid hsorted.1) ?_ ?_ hfits.1 ht
    · intro e he
      exact (hkeys e (List.mem_of_mem_filter he)).1
    · intro e he w hw
      have hmem := List.mem_of_mem_filter he
      exact ih e hmem (hsorted.2 e hmem) (hkeys e hmem).2 (hfits.2 e hmem) hw
  | list items ih =>
    rw [QVariant.Ascending, QVariant.ascendingList_iff] at hsorted
    rw [KeysKept, keysKeptList_iff] at hkeys
    rw [Fits, fitsList_iff] at hfits
    rw [push_list] at ht
    have hvalue := fun e he => @push_validItems_ne_nil fl items e he
    have hconvert : ∀ e ∈ validItems items, ∀ w, Reordered (Push fl e.1) w →
        toQVar fl lazy (room - if noFirst items then 3 else 2) w = .ok (forwarded fl e.1) := by
      intro e he w hw
      have hmem := fst_mem_of_validItems he
      exact ih e.1 hmem (hsorted e.1 hmem) (hkeys e.1 hmem) (hfits.2 e.1 hmem) hw
    rw [forwarded]
    cases hfirst : noFirst items with
    | true =>
      simp only [hfirst, if_true] at hconvert ⊢
      rw [forwardedHoles_eq]
      exact toQVar_holes_ok fl lazy hvalue hconvert hfirst hfits.1 ht
    | false =>
      simp only [hfirst, Bool.false_eq_true, if_false] at hconvert ⊢
      rw [forwardedList_eq]
      exact toQVar_list_ok fl lazy hvalue hconvert hfirst (fun j v _ => rfl) hfits.1 ht

end Radapter.Lua
