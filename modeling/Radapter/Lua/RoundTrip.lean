import Radapter.Lua.Forwarded

/-!
# Messages that come back from Lua

A message in normal form, handed to Lua with `glua::Push` and back with `toQVar`, is the same
message again, whatever order the tables keep their fields in. Keys that look like numbers stay
keys: the fields of a list are integers, those of a map strings.
-/

namespace Radapter.Lua

/-- The leaves of a normal form. -/
def NormalLeaf : Scalar → Prop
  | .bool _ | .longlong _ | .double _ | .byteArray _ => True
  | .string q => TextKept q
  | _ => False

mutual

/-- A message in normal form. -/
def NormalForm : QVariant → Prop
  | .leaf s => NormalLeaf s
  | .list items => items ≠ [] ∧ NormalList items
  | .map entries => (entries.map Prod.fst).Pairwise (· < ·) ∧ NormalMap entries

/-- The condition on the items of a list. -/
def NormalList : List QVariant → Prop
  | [] => True
  | v :: rest => NormalForm v ∧ NormalList rest

/-- The condition on the entries of a map. -/
def NormalMap : List (QString × QVariant) → Prop
  | [] => True
  | (k, v) :: rest => TextKept k ∧ NormalForm v ∧ NormalMap rest

end

/-- A list is in normal form if each item is. -/
theorem normalList_iff {items : List QVariant} : NormalList items ↔ ∀ v ∈ items, NormalForm v := by
  induction items with
  | nil => simp [NormalList]
  | cons v rest ih => simp [NormalList, ih]

/-- A map is in normal form if its keys come back and each value is. -/
theorem normalMap_iff {entries : List (QString × QVariant)} :
    NormalMap entries ↔ ∀ e ∈ entries, TextKept e.1 ∧ NormalForm e.2 := by
  induction entries with
  | nil => simp [NormalMap]
  | cons e rest ih => simp [NormalMap, ih, and_assoc]

/-- A null is in no normal form. -/
theorem NormalForm.ne_invalid {v : QVariant} (h : NormalForm v) : v ≠ .invalid := by
  rintro rfl
  exact h

/-- A normal form is not null. -/
theorem NormalForm.isValid {v : QVariant} (h : NormalForm v) : v.isValid = true :=
  QVariant.isValid_iff.mpr h.ne_invalid

/-- The maps of a normal form are in order. -/
theorem NormalForm.ascending {v : QVariant} (h : NormalForm v) : v.Ascending := by
  induction v using QVariant.memInduction with
  | leaf s => trivial
  | list items ih =>
    rw [NormalForm, normalList_iff] at h
    rw [QVariant.Ascending, QVariant.ascendingList_iff]
    intro v hv
    exact ih v hv (h.2 v hv)
  | map entries ih =>
    rw [NormalForm, normalMap_iff] at h
    rw [QVariant.Ascending, QVariant.ascendingMap_iff]
    refine ⟨h.1, ?_⟩
    intro e he
    exact ih e he (h.2 e he).2

/-- The keys of a normal form come back. -/
theorem NormalForm.keysKept {v : QVariant} (h : NormalForm v) : KeysKept v := by
  induction v using QVariant.memInduction with
  | leaf s => trivial
  | list items ih =>
    rw [NormalForm, normalList_iff] at h
    rw [KeysKept, keysKeptList_iff]
    intro v hv
    exact ih v hv (h.2 v hv)
  | map entries ih =>
    rw [NormalForm, normalMap_iff] at h
    rw [KeysKept, keysKeptMap_iff]
    intro e he
    exact ⟨(h.2 e he).1, ih e he (h.2 e he).2⟩

/-- A scalar of a normal form has the type that comes back. -/
theorem forwardedScalar_normal (fl : Floats) {s : Scalar} (h : NormalLeaf s) :
    forwardedScalar fl s = s := by
  cases s with
  | bool b => rfl
  | longlong n => rfl
  | double bits => rfl
  | byteArray b => rfl
  | string q => exact toStrOrBinary_toStdString h.1 h.2
  | invalid => exact h.elim
  | int n => exact h.elim
  | uint n => exact h.elim
  | float bits => exact h.elim

/-- Nothing is dropped from a normal form. -/
theorem forwarded_normal (fl : Floats) {v : QVariant} (h : NormalForm v) : forwarded fl v = v := by
  induction v using QVariant.memInduction with
  | leaf s => rw [forwarded, forwardedScalar_normal fl h]
  | map entries ih =>
    rw [NormalForm, normalMap_iff] at h
    have hvalid : entries.filter (fun e => e.2.isValid) = entries :=
      List.filter_eq_self.mpr (fun e he => (h.2 e he).2.isValid)
    have hsame : entries.map (fun e => (e.1, forwarded fl e.2)) = entries.map id := by
      apply List.map_congr_left
      intro e he
      rw [ih e he (h.2 e he).2]
      rfl
    rw [forwarded, forwardedMap_eq, hvalid, hsame, List.map_id]
  | list items ih =>
    rw [NormalForm, normalList_iff] at h
    have hfirst : noFirst items = false := by
      obtain ⟨first, rest, rfl⟩ := List.exists_cons_of_ne_nil h.1
      simp [noFirst, (h.2 first (by simp)).ne_invalid]
    have hvalid : items.takeWhile QVariant.isValid = items :=
      List.takeWhile_eq_self_iff.mpr (fun v hv => (h.2 v hv).isValid)
    have hsame : items.map (forwarded fl) = items.map id := by
      apply List.map_congr_left
      intro v hv
      exact ih v hv (h.2 v hv)
    rw [forwarded, hfirst, if_neg Bool.false_ne_true, forwardedList_eq, hvalid, hsame, List.map_id]

/-- A message in normal form comes back from Lua, for every order of the fields of its tables. -/
theorem toQVar_push (fl : Floats) (lazy : ℕ → Path → Conversion) {v : QVariant} (h : NormalForm v)
    {room : ℕ} (hfits : Fits room v) {t : LuaValue} (ht : Reordered (Push fl v) t) :
    toQVar fl lazy room t = .ok v := by
  rw [toQVar_forwarded fl lazy h.ascending h.keysKept hfits ht, forwarded_normal fl h]

/-- A list under a key that looks like an index, with the fields of its table exchanged. -/
theorem toQVar_push_exchanged :
    Reordered (Push .unused (.map [([49], .list [.leaf (.longlong 5), .leaf (.bool true)])]))
        (.table [(.string [49], .table [(.integer 2, .boolean true), (.integer 1, .integer 5)])]) ∧
      toQVar .unused (fun _ _ => .ok .invalid) 10
        (.table [(.string [49], .table [(.integer 2, .boolean true), (.integer 1, .integer 5)])]) =
      .ok (.map [([49], .list [.leaf (.longlong 5), .leaf (.bool true)])]) := by
  have hitems : Reordered (Push .unused (.list [.leaf (.longlong 5), .leaf (.bool true)]))
      (.table [(.integer 2, .boolean true), (.integer 1, .integer 5)]) :=
    ⟨_, _, rfl, ⟨_, _, rfl, rfl, _, _, rfl, rfl, rfl⟩, .swap _ _ _⟩
  have ht : Reordered
      (Push .unused (.map [([49], .list [.leaf (.longlong 5), .leaf (.bool true)])]))
      (.table [(.string [49], .table [(.integer 2, .boolean true), (.integer 1, .integer 5)])]) :=
    ⟨_, _, rfl, ⟨_, _, rfl, hitems, rfl⟩, .rfl⟩
  refine ⟨ht, toQVar_push .unused _ ?_ ?_ ht⟩
  · refine ⟨by simp, ⟨by decide, by decide⟩, ⟨by simp, trivial, trivial, trivial⟩, trivial⟩
  · exact ⟨by decide, ⟨by decide, trivial, trivial, trivial⟩, trivial⟩

end Radapter.Lua
