import Radapter.Lua.Reorder
import Radapter.UnflattenOrder

/-!
# One level of a message there and back

A map whose keys come back from their UTF-8 forms is pushed as a table with one field for each
entry that is not null, and a list with one for each such item. This file has what `toQVar` makes
of such tables, whatever values their fields hold: it is used for the values that were pushed and
for values that a script put in their place.
-/

namespace Radapter.Lua

open Library

/-- A text that comes back from its UTF-8 form: valid Unicode that does not start with a
byte-order mark. -/
def TextKept (q : QString) : Prop := validUtf16 q = true ∧ startsWithBom q = false

/-- A list without a first value: its table has no field `1`. -/
def noFirst (items : List QVariant) : Bool := items.head?.all (fun v => !v.isValid)

mutual

/-- The nesting of a message fits the free slots of the Lua stack. A list without a first value
takes the slots of a map. -/
def Fits (room : ℕ) : QVariant → Prop
  | .leaf _ => True
  | .list items => 3 ≤ room ∧ FitsList (room - if noFirst items then 3 else 2) items
  | .map entries => 3 ≤ room ∧ FitsMap (room - 3) entries

/-- The items of a list fit the free slots. -/
def FitsList (room : ℕ) : List QVariant → Prop
  | [] => True
  | v :: rest => Fits room v ∧ FitsList room rest

/-- The values of a map fit the free slots. -/
def FitsMap (room : ℕ) : List (QString × QVariant) → Prop
  | [] => True
  | (_, v) :: rest => Fits room v ∧ FitsMap room rest

end

/-- A list has no first value if it is empty or begins with null. -/
theorem noFirst_iff {items : List QVariant} :
    noFirst items = true ↔ ∀ v ∈ items.head?, v = .invalid := by
  cases items with
  | nil => simp [noFirst]
  | cons v items => simp [noFirst, Bool.eq_false_iff]

/-- A list fits if each item does. -/
theorem fitsList_iff {room : ℕ} {items : List QVariant} :
    FitsList room items ↔ ∀ v ∈ items, Fits room v := by
  induction items with
  | nil => simp [FitsList]
  | cons v rest ih => simp [FitsList, ih]

/-- A map fits if each value does. -/
theorem fitsMap_iff {room : ℕ} {entries : List (QString × QVariant)} :
    FitsMap room entries ↔ ∀ e ∈ entries, Fits room e.2 := by
  induction entries with
  | nil => simp [FitsMap]
  | cons e rest ih => simp [FitsMap, ih]

/-! ## Tables of maps and lists -/

/-- Kept texts are told apart by their UTF-8 forms. -/
theorem toStdString_injective {q r : QString} (hq : TextKept q) (hr : TextKept r)
    (h : toStdString q = toStdString r) : q = r := by
  have hread := toStrOrBinary_toStdString hq.1 hq.2
  rw [h, toStrOrBinary_toStdString hr.1 hr.2] at hread
  exact (Scalar.string.inj hread).symm

/-- A kept text is read as the key it was written for. -/
theorem stringKey_toStdString {q : QString} (hq : TextKept q) : stringKey (toStdString q) = q := by
  rw [stringKey, toStrOrBinary_toStdString hq.1 hq.2]

/-- A null is not stored. -/
theorem rawset_push_invalid (fl : Floats) {fields : Fields} {k : LuaKey}
    (hfresh : k ∉ fields.map Prod.fst) : rawset fields k (Push fl .invalid) = fields :=
  Assoc.erase_of_not_mem hfresh

/-- Any other value is added behind the fields that are there. -/
theorem rawset_push_fresh (fl : Floats) {fields : Fields} {k : LuaKey} {v : QVariant}
    (hv : v ≠ .invalid) (hfresh : k ∉ fields.map Prod.fst) :
    rawset fields k (Push fl v) = fields ++ [(k, Push fl v)] := by
  have hnil : (Push fl v).isNil = false := by
    rw [Bool.eq_false_iff, ne_eq, LuaValue.isNil_iff, push_eq_nil_iff]
    exact hv
  rw [rawset, hnil, if_neg Bool.false_ne_true, Assoc.put_of_not_mem hfresh]

/-- The fields of a map whose keys are written differently. -/
theorem pushMap_eq (fl : Floats) {entries : List (QString × QVariant)} {fields : Fields}
    (hkeys : (entries.map (fun e => toStdString e.1)).Nodup)
    (hfresh : ∀ e ∈ entries, .string (toStdString e.1) ∉ fields.map Prod.fst) :
    pushMap fl fields entries = fields ++ (entries.filter (fun e => e.2.isValid)).map
      (fun e => (.string (toStdString e.1), Push fl e.2)) := by
  induction entries generalizing fields with
  | nil => simp [pushMap]
  | cons e entries ih =>
    obtain ⟨k, v⟩ := e
    obtain ⟨hk, hkeys⟩ := List.nodup_cons.mp hkeys
    have hnew := hfresh (k, v) (by simp)
    have hlater := fun e he => hfresh e (List.mem_cons_of_mem _ he)
    rw [pushMap]
    by_cases hv : v = .invalid
    · rw [hv, rawset_push_invalid fl hnew, ih hkeys hlater,
        List.filter_cons_of_neg (by simp [QVariant.isValid, QVariant.invalid])]
    · rw [rawset_push_fresh fl hv hnew, ih hkeys,
        List.filter_cons_of_pos (by simpa using hv)]
      · simp
      · intro e he
        rw [List.map_append, List.mem_append, not_or]
        refine ⟨hlater e he, ?_⟩
        simp only [List.map_cons, List.map_nil, List.mem_singleton, LuaKey.string.injEq]
        intro heq
        exact hk (List.mem_map.mpr ⟨e, he, heq⟩)

/-- The fields of a list. -/
theorem pushList_eq (fl : Floats) {items : List QVariant} {fields : Fields} {i : ℕ}
    (hfresh : ∀ j, i ≤ j → .integer (j : ℤ) ∉ fields.map Prod.fst) :
    pushList fl fields i items = fields ++ ((items.zipIdx i).filter (fun e => e.1.isValid)).map
      (fun e => (.integer (e.2 : ℤ), Push fl e.1)) := by
  induction items generalizing fields i with
  | nil => simp [pushList]
  | cons v items ih =>
    have hnew := hfresh i (Nat.le_refl i)
    rw [pushList, List.zipIdx_cons]
    by_cases hv : v = .invalid
    · rw [hv, rawset_push_invalid fl hnew, ih (fun j hj => hfresh j (by omega)),
        List.filter_cons_of_neg (by simp [QVariant.isValid, QVariant.invalid])]
    · rw [rawset_push_fresh fl hv hnew, ih,
        List.filter_cons_of_pos (by simpa using hv)]
      · simp
      · intro j hj
        rw [List.map_append, List.mem_append, not_or]
        refine ⟨hfresh j (by omega), ?_⟩
        simp only [List.map_cons, List.map_nil, List.mem_singleton, LuaKey.integer.injEq]
        omega

/-- The keys of a map that come back are written differently. -/
theorem nodup_toStdString {entries : List (QString × QVariant)}
    (hsorted : (entries.map Prod.fst).Pairwise (· < ·)) (hkept : ∀ e ∈ entries, TextKept e.1) :
    (entries.map (fun e => toStdString e.1)).Nodup := by
  rw [List.Nodup, List.pairwise_map]
  rw [List.pairwise_map] at hsorted
  apply hsorted.imp_of_mem
  intro a b ha hb hlt heq
  have hab := toStdString_injective (hkept a ha) (hkept b hb) heq
  exact List.lt_irrefl _ (hab ▸ hlt)

/-- The items of a list that are not null, with their indices. -/
def validItems (items : List QVariant) : List (QVariant × ℕ) :=
  (items.zipIdx 1).filter (fun e => e.1.isValid)

/-- The table of a map. -/
theorem push_map (fl : Floats) {entries : List (QString × QVariant)}
    (hsorted : (entries.map Prod.fst).Pairwise (· < ·)) (hkept : ∀ e ∈ entries, TextKept e.1) :
    Push fl (.map entries) = .table ((entries.filter (fun e => e.2.isValid)).map
      (fun e => (.string (toStdString e.1), Push fl e.2))) := by
  rw [Push, pushMap_eq fl (nodup_toStdString hsorted hkept) (by simp), List.nil_append]

/-- The table of a list. -/
theorem push_list (fl : Floats) (items : List QVariant) :
    Push fl (.list items) = .table ((validItems items).map
      (fun e => (.integer (e.2 : ℤ), Push fl e.1))) := by
  rw [Push, pushList_eq fl (by simp), List.nil_append, validItems]

/-- Different indices have different texts. -/
theorem integerText_injective {m n : ℕ} (h : integerText m = integerText n) : m = n := by
  have hdigits : (decimal m).map UInt8.toUInt16 = (decimal n).map UInt8.toUInt16 := by
    unfold integerText at h
    rwa [if_neg (by omega), if_neg (by omega), List.nil_append, List.nil_append, Int.natAbs_natCast,
      Int.natAbs_natCast] at h
  have hinj : Function.Injective UInt8.toUInt16 := by
    intro a b hab
    have hnat := congrArg UInt16.toNat hab
    simpa [UInt8.toNat_inj] using hnat
  exact decimal_injective (List.map_injective_iff.mpr hinj hdigits)

/-! ## Collecting the fields -/

/-- Entries inserted in ascending order are the map. -/
theorem foldl_insert_sorted (fl : Floats) {entries done : List (QString × QVariant)}
    (hkept : ∀ e ∈ entries, TextKept e.1)
    (hkeys : ((done ++ entries).map Prod.fst).Pairwise (· < ·)) :
    (entries.map (fun e => (LuaKey.string (toStdString e.1), Except.ok e.2))).foldl
      (insertField fl) done = done ++ entries := by
  induction entries generalizing done with
  | nil => simp
  | cons e entries ih =>
    have hinsert : insertField fl done (.string (toStdString e.1), .ok e.2) = done ++ [e] := by
      simp only [insertField, fieldKey, stringKey_toStdString (hkept e (by simp))]
      rw [updateEntry_last]
      intro d hd
      rw [List.map_append, List.pairwise_append] at hkeys
      exact hkeys.2.2 d.1 (List.mem_map_of_mem hd) e.1 (by simp)
    rw [List.map_cons, List.foldl_cons, hinsert,
      ih (fun e he => hkept e (List.mem_cons_of_mem _ he)) (by simpa using hkeys)]
    simp

/-- Fields with different map keys can be inserted in any order. -/
theorem insertField_comm (fl : Floats) {f g : LuaKey × Conversion}
    (h : fieldKey fl f.1 ≠ fieldKey fl g.1) (entries : List (QString × QVariant)) :
    insertField fl (insertField fl entries f) g = insertField fl (insertField fl entries g) f := by
  unfold insertField
  cases hf : fieldKey fl f.1 with
  | none => rfl
  | some q =>
    cases hg : fieldKey fl g.1 with
    | none => rfl
    | some r =>
      have hne : q ≠ r := by
        rintro rfl
        exact h (hf.trans hg.symm)
      cases hfv : f.2 with
      | error e => rfl
      | ok v =>
        cases hgv : g.2 with
        | error e => rfl
        | ok w => exact updateEntry_comm hne.symm _ _ entries

/-- Fields of kept texts build the map they were made from, in any order. -/
theorem collectMap_perm (fl : Floats) {entries : List (QString × QVariant)}
    (hkept : ∀ e ∈ entries, TextKept e.1) (hkeys : (entries.map Prod.fst).Pairwise (· < ·))
    {fields : List (LuaKey × Conversion)}
    (hperm : fields.Perm (entries.map (fun e => (.string (toStdString e.1), .ok e.2)))) :
    collectMap fl fields [] = .ok entries := by
  have hok : ∀ f ∈ fields, ∃ v, f.2 = .ok v := by
    intro f hf
    obtain ⟨e, -, rfl⟩ := List.mem_map.mp (hperm.mem_iff.mp hf)
    exact ⟨e.2, rfl⟩
  rw [collectMap_ok fl hok, List.Perm.foldl_eq' hperm,
    foldl_insert_sorted fl hkept (by simpa using hkeys)]
  · rfl
  · intro f hf g hg out
    obtain ⟨a, ha, rfl⟩ := List.mem_map.mp (hperm.mem_iff.mp hf)
    obtain ⟨b, hb, rfl⟩ := List.mem_map.mp (hperm.mem_iff.mp hg)
    by_cases heq : a.1 = b.1
    · rw [entry_unique hkeys ha hb heq]
    · refine insertField_comm fl ?_ out
      simp only [fieldKey, stringKey_toStdString (hkept a ha), stringKey_toStdString (hkept b hb),
        ne_eq, Option.some.injEq]
      exact heq

end Radapter.Lua
