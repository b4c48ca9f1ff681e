import Mathlib.Data.List.TakeWhile
import Radapter.Lua.Levels

/-!
# What one level becomes again

The table of a map becomes a map again, the table of a list the items before its first null; a list
without a first value becomes a map of its indices. That holds for every order of the fields and
for any values in them, as long as it is known what these are converted to. A field whose conversion
fails makes the whole table fail, unless it stands behind a null in a list.
-/

namespace Radapter.Lua

open Library

section Levels

variable (fl : Floats) (lazy : ℕ → Path → Conversion) {room : ℕ}

/-- A table of a map whose values are all converted. -/
theorem toQVar_map_ok {entries : List (QString × QVariant)}
    (hsorted : (entries.map Prod.fst).Pairwise (· < ·)) (hkept : ∀ e ∈ entries, TextKept e.1)
    {value : QString × QVariant → LuaValue} {out : QString × QVariant → QVariant}
    (hout : ∀ e ∈ entries, ∀ w, Reordered (value e) w →
      toQVar fl lazy (room - 3) w = .ok (out e)) (hroom : 3 ≤ room) {t : LuaValue}
    (ht : Reordered (.table (entries.map fun e => (.string (toStdString e.1), value e))) t) :
    toQVar fl lazy room t = .ok (.map (entries.map fun e => (e.1, out e))) := by
  obtain ⟨same, other, rfl, hsame, hperm⟩ := ht
  have hone : rawget other (.integer 1) = .nil := rawget_reordered hsame hperm (by simp)
  have hconverted := toQVarFields_perm fl lazy hout hsame hperm
  have hcollect : collectMap fl (toQVarFields fl lazy (room - 3) other) [] =
      .ok (entries.map fun e => (e.1, out e)) := by
    apply collectMap_perm
    · intro d hd
      obtain ⟨e, he, rfl⟩ := List.mem_map.mp hd
      exact hkept e he
    · rw [List.map_map]
      exact hsorted
    · rw [List.map_map]
      exact hconverted
  rw [toQVar, if_neg (by omega), if_pos (LuaValue.isNil_iff.mpr hone), hcollect]

/-- The indices of a list. -/
theorem mem_validItems {items : List QVariant} {e : QVariant × ℕ} :
    e ∈ validItems items ↔ ∃ j, items[j]? = some e.1 ∧ e.2 = 1 + j ∧ e.1 ≠ .invalid := by
  obtain ⟨v, n⟩ := e
  rw [validItems, List.mem_filter, List.mk_mem_zipIdx_iff_le_and_getElem?_sub]
  simp only [QVariant.isValid_iff]
  constructor
  · rintro ⟨⟨hle, hitem⟩, hv⟩
    exact ⟨n - 1, hitem, by omega, hv⟩
  · rintro ⟨j, hitem, rfl, hv⟩
    exact ⟨⟨by omega, by rwa [Nat.add_sub_cancel_left]⟩, hv⟩

/-- The indices of a list are distinct. -/
theorem nodup_validItems (items : List QVariant) : ((validItems items).map Prod.snd).Nodup := by
  have hindices : ((items.zipIdx 1).map Prod.snd).Nodup := by
    rw [List.zipIdx_map_snd]
    exact List.nodup_range' _
  exact (List.filter_sublist.map Prod.snd).nodup hindices

/-- Converted items are found under their indices, in any order. -/
theorem lookup_validItems {items : List QVariant} {result : QVariant × ℕ → Conversion}
    {converted : List (LuaKey × Conversion)}
    (hperm : converted.Perm ((validItems items).map fun e => (.integer (e.2 : ℤ), result e)))
    (j : ℕ) : converted.lookup (.integer ((1 + j : ℕ) : ℤ)) =
      (items[j]?.filter QVariant.isValid).map fun v => result (v, 1 + j) := by
  have hdistinct : Assoc.Distinct
      ((validItems items).map fun e => (LuaKey.integer (e.2 : ℤ), result e)) := by
    have hindices := nodup_validItems items
    rw [Assoc.Distinct, List.map_map]
    rw [List.Nodup, List.pairwise_map] at hindices ⊢
    apply hindices.imp
    intro a b hne heq
    simp only [Function.comp_apply, LuaKey.integer.injEq] at heq
    omega
  rw [Assoc.lookup_perm hdistinct hperm.symm]
  refine Option.ext fun r => ?_
  rw [Assoc.lookup_eq_some_iff_mem hdistinct, List.mem_map, Option.map_eq_some_iff]
  constructor
  · rintro ⟨e, he, heq⟩
    obtain ⟨i, hitem, hindex, hv⟩ := mem_validItems.mp he
    simp only [Prod.mk.injEq, LuaKey.integer.injEq] at heq
    obtain rfl : i = j := by omega
    refine ⟨e.1, ?_, ?_⟩
    · rw [hitem, Option.filter_some, if_pos (QVariant.isValid_iff.mpr hv)]
    · rw [← heq.2, ← hindex]
  · rintro ⟨v, hv, rfl⟩
    obtain ⟨hitem, hvalid⟩ := Option.filter_eq_some_iff.mp hv
    exact ⟨(v, 1 + j), mem_validItems.mpr ⟨j, hitem, rfl, QVariant.isValid_iff.mp hvalid⟩, rfl⟩

/-- The field `1` of a table of a list. -/
theorem rawget_one_reordered {items : List QVariant} {value : QVariant × ℕ → LuaValue}
    (hvalue : ∀ e ∈ validItems items, value e ≠ .nil) {same other : Fields}
    (hsame : ReorderedFields ((validItems items).map fun e => (.integer (e.2 : ℤ), value e)) same)
    (hperm : same.Perm other) :
    rawget other (.integer 1) = .nil ↔ noFirst items = true := by
  rw [noFirst_iff]
  constructor
  · intro hnil v hv
    by_contra hne
    apply absurd hnil
    apply rawget_ne_nil
    · rw [← (hperm.map Prod.fst).mem_iff, hsame.keys, List.map_map, List.mem_map]
      refine ⟨(v, 1), mem_validItems.mpr ⟨0, ?_, rfl, hne⟩, rfl⟩
      rw [← List.head?_eq_getElem?]
      exact hv
    · intro f hf
      refine hsame.ne_nil ?_ f (hperm.mem_iff.mpr hf)
      intro f hf
      obtain ⟨e, he, rfl⟩ := List.mem_map.mp hf
      exact hvalue e he
  · intro hnull
    apply rawget_reordered hsame hperm
    rw [List.map_map, List.mem_map]
    rintro ⟨e, he, hone⟩
    obtain ⟨j, hitem, hindex, hv⟩ := mem_validItems.mp he
    rw [Function.comp_apply, LuaKey.integer.injEq] at hone
    obtain rfl : j = 0 := by omega
    rw [← List.head?_eq_getElem?] at hitem
    exact hv (hnull e.1 hitem)

/-- Behind its leading items a list has a null or nothing. -/
theorem getElem?_leading_length (items : List QVariant) :
    (items[(items.takeWhile QVariant.isValid).length]?).filter QVariant.isValid = none := by
  induction items with
  | nil => rfl
  | cons v items ih =>
    by_cases hv : v.isValid = true
    · rw [List.takeWhile_cons_of_pos hv, List.length_cons, List.getElem?_cons_succ, ih]
    · rw [List.takeWhile_cons_of_neg hv, List.length_nil, List.getElem?_cons_zero,
        Option.filter_some, if_neg hv]

/-- The leading items stand where they stand in the list. -/
theorem getElem?_leading {items : List QVariant} {j : ℕ}
    (h : j < (items.takeWhile QVariant.isValid).length) :
    (items.takeWhile QVariant.isValid)[j]? = items[j]? := by
  obtain ⟨rest, hrest⟩ := @List.takeWhile_prefix _ items QVariant.isValid
  have hleft := @List.getElem?_append_left _ _ rest j h
  rw [hrest] at hleft
  exact hleft.symm

/-- A leading item is an item that is not null. -/
theorem getElem?_of_leading {items : List QVariant} {j : ℕ} {v : QVariant}
    (h : (items.takeWhile QVariant.isValid)[j]? = some v) :
    (items[j]?).filter QVariant.isValid = some v := by
  have hvalid := List.mem_takeWhile_imp (List.mem_of_getElem? h)
  rw [getElem?_leading (List.getElem?_eq_some_iff.mp h).1] at h
  rw [h, Option.filter_some, if_pos hvalid]

/-- There are no more leading items than items that are not null. -/
theorem length_leading_le (items : List QVariant) :
    (items.takeWhile QVariant.isValid).length ≤ (validItems items).length := by
  have hfst : (validItems items).map Prod.fst = items.filter QVariant.isValid := by
    have hfilter := @List.filter_map _ _ Prod.fst QVariant.isValid (items.zipIdx 1)
    rw [List.zipIdx_map_fst] at hfilter
    exact hfilter.symm
  have hlength := congrArg List.length hfst
  rw [List.length_map] at hlength
  have hleading : (items.takeWhile QVariant.isValid).filter QVariant.isValid =
      items.takeWhile QVariant.isValid :=
    List.filter_eq_self.mpr (fun v hv => List.mem_takeWhile_imp hv)
  rw [hlength, ← hleading]
  exact ((List.takeWhile_sublist _).filter _).length_le

section List

variable {items : List QVariant} {value : QVariant × ℕ → LuaValue}
  {result : QVariant × ℕ → Conversion} {t : LuaValue}

/-- A table of a list has no fewer fields than the list has leading items. -/
theorem length_leading_le_fields {same other : Fields}
    (hsame : ReorderedFields ((validItems items).map fun e => (.integer (e.2 : ℤ), value e)) same)
    (hperm : same.Perm other) : (items.takeWhile QVariant.isValid).length ≤ other.length := by
  have hkeys := congrArg List.length hsame.keys
  rw [List.length_map, List.length_map, List.length_map] at hkeys
  rw [← hperm.length_eq, hkeys]
  exact length_leading_le items

/-- A table of a list whose leading items are all converted. -/
theorem toQVar_list_ok (hvalue : ∀ e ∈ validItems items, value e ≠ .nil)
    (hresult : ∀ e ∈ validItems items, ∀ w, Reordered (value e) w →
      toQVar fl lazy (room - 2) w = result e) (hfirst : noFirst items = false)
    {out : QVariant → QVariant}
    (hout : ∀ j v, (items.takeWhile QVariant.isValid)[j]? = some v →
      result (v, 1 + j) = .ok (out v)) (hroom : 3 ≤ room)
    (ht : Reordered (.table ((validItems items).map fun e => (.integer (e.2 : ℤ), value e))) t) :
    toQVar fl lazy room t = .ok (.list ((items.takeWhile QVariant.isValid).map out)) := by
  obtain ⟨same, other, rfl, hsame, hperm⟩ := ht
  have hone : rawget other (.integer 1) ≠ .nil := by
    intro hnil
    rw [(rawget_one_reordered hvalue hsame hperm).mp hnil] at hfirst
    cases hfirst
  have hlookup := lookup_validItems (toQVarFields_perm fl lazy hresult hsame hperm)
  have hlength := length_leading_le_fields hsame hperm
  have hcollect : collectList (toQVarFields fl lazy (room - 2) other) other.length 1 =
      .ok ((items.takeWhile QVariant.isValid).map out) := by
    apply collectList_eq
    · intro j u hu
      rw [List.getElem?_map, Option.map_eq_some_iff] at hu
      obtain ⟨v, hv, rfl⟩ := hu
      rw [hlookup, getElem?_of_leading hv, Option.map_some, hout j v hv]
    · rw [hlookup, List.length_map, getElem?_leading_length, Option.map_none]
    · rw [List.length_map]
      exact hlength
  rw [toQVar, if_neg (by omega), if_neg (by simpa using hone), hcollect]

/-- A table of a list that starts with a null becomes a map, if its values are converted. -/
theorem toQVar_holes_ok (hvalue : ∀ e ∈ validItems items, value e ≠ .nil)
    {out : QVariant → QVariant}
    (hout : ∀ e ∈ validItems items, ∀ w, Reordered (value e) w →
      toQVar fl lazy (room - 3) w = .ok (out e.1)) (hfirst : noFirst items = true)
    (hroom : 3 ≤ room)
    (ht : Reordered (.table ((validItems items).map fun e => (.integer (e.2 : ℤ), value e))) t) :
    toQVar fl lazy room t = .ok (.map (((validItems items).map fun e =>
      (LuaKey.integer (e.2 : ℤ), (.ok (out e.1) : Conversion))).foldl (insertField fl) [])) := by
  obtain ⟨same, other, rfl, hsame, hperm⟩ := ht
  have hone := (rawget_one_reordered hvalue hsame hperm).mpr hfirst
  have hconverted := toQVarFields_perm fl lazy hout hsame hperm
  have hok : ∀ f ∈ toQVarFields fl lazy (room - 3) other, ∃ v, f.2 = .ok v := by
    intro f hf
    obtain ⟨e, -, rfl⟩ := List.mem_map.mp (hconverted.mem_iff.mp hf)
    exact ⟨out e.1, rfl⟩
  rw [toQVar, if_neg (by omega), if_pos (LuaValue.isNil_iff.mpr hone), collectMap_ok fl hok,
    List.Perm.foldl_eq' hconverted]
  intro f hf g hg entries
  obtain ⟨a, ha, rfl⟩ := List.mem_map.mp (hconverted.mem_iff.mp hf)
  obtain ⟨b, hb, rfl⟩ := List.mem_map.mp (hconverted.mem_iff.mp hg)
  by_cases hab : a.2 = b.2
  · rw [List.inj_on_of_nodup_map (nodup_validItems items) ha hb hab]
  · apply insertField_comm
    simp only [fieldKey, ne_eq, Option.some.injEq]
    exact fun heq => hab (by exact_mod_cast integerText_injective heq)

end List

end Levels

end Radapter.Lua
