import Mathlib.Data.List.Induction
import Mathlib.Data.List.OfFn
import Radapter.Lua.Strings
import Radapter.UnflattenRebuild

/-!
# The strings of a Lua value

Every string of a plain value has a place in the message the value becomes: the list items and map
entries that the keys of its tables turn into. A string survives when the leaf there holds its
bytes. That fails for the strings `toStrOrBinary` cuts, for a string below a key that a later key
is turned into as well, and below tables for which the stack has no room.
-/

namespace Radapter.Lua

open Library

/-- A list without holes: the keys are `1`, `2` and so on, in any order. -/
def IsSequence (fields : Fields) : Prop :=
  (fields.map Prod.fst).Perm ((List.range' 1 fields.length).map (fun i : ℕ => LuaKey.integer i))

/-- A map with string keys. -/
def IsRecord (fields : Fields) : Prop :=
  Assoc.Distinct fields ∧ ∀ f ∈ fields, ∃ s, f.1 = .string s

mutual

/-- A value built from booleans, numbers, strings, lists without holes and string-keyed maps. -/
def Plain : LuaValue → Prop
  | .boolean _ | .integer _ | .number _ | .string _ => True
  | .table fields => (IsSequence fields ∨ IsRecord fields) ∧ PlainFields fields
  | .nil | .bytes _ | .view _ => False

/-- The values of the fields are plain. -/
def PlainFields : Fields → Prop
  | [] => True
  | (_, v) :: rest => Plain v ∧ PlainFields rest

end

mutual

/-- The strings of a value, each with the keys that lead to it. -/
def strings : LuaValue → List (Path × Bytes)
  | .string s => [([], s)]
  | .table fields => stringsFields fields
  | _ => []

/-- The strings below the fields of a table. -/
def stringsFields : Fields → List (Path × Bytes)
  | [] => []
  | (k, v) :: rest => (strings v).map (fun e => (k :: e.1, e.2)) ++ stringsFields rest

end

/-- The item or entry a field becomes. Plain tables have no other keys. -/
def placeOf : LuaKey → Selector
  | .integer n => .index (n.toNat - 1)
  | .string s => .key (stringKey s)
  | .number _ | .boolean _ => .key []

/-- Every string of the value has a leaf of its own in the message, and the leaf holds its bytes. -/
def Survives (fl : Floats) (lazy : ℕ → Path → Conversion) (room : ℕ) (t : LuaValue) : Prop :=
  ∃ v, toQVar fl lazy room t = .ok v ∧
    (∀ e ∈ strings t, ∃ leaf, (e.1.map placeOf, leaf) ∈ places v ∧ Carries e.2 leaf) ∧
    ((strings t).map (fun e => e.1.map placeOf)).Nodup

/-- The free slots for the values of a table. -/
def roomBelow (fields : Fields) (room : ℕ) : ℕ :=
  if (rawget fields (.integer 1)).isNil then room - 3 else room - 2

mutual

/-- The condition for all strings to survive: each is kept, a table with a string has room, and a
field with a string is not replaced by a later one. -/
def Keeps (room : ℕ) : LuaValue → Prop
  | .string s => StringKept s
  | .table fields => stringsFields fields ≠ [] →
      3 ≤ room ∧
      fields.Pairwise (fun f g => strings f.2 ≠ [] → placeOf g.1 ≠ placeOf f.1) ∧
      KeepsFields (roomBelow fields room) fields
  | _ => True

/-- The condition for the values of the fields. -/
def KeepsFields (room : ℕ) : Fields → Prop
  | [] => True
  | (_, v) :: rest => Keeps room v ∧ KeepsFields room rest

end

/-- Fields are plain if each value is. -/
theorem plainFields_iff {fields : Fields} : PlainFields fields ↔ ∀ f ∈ fields, Plain f.2 := by
  induction fields with
  | nil => simp [PlainFields]
  | cons f rest ih => simp [PlainFields, ih]

/-- Induction over a plain value. -/
@[elab_as_elim]
theorem Plain.induction {motive : (t : LuaValue) → Plain t → Prop}
    (string : ∀ s, motive (.string s) trivial) (boolean : ∀ b, motive (.boolean b) trivial)
    (integer : ∀ n, motive (.integer n) trivial) (number : ∀ bits, motive (.number bits) trivial)
    (table : ∀ (fields : Fields) (h : Plain (.table fields)),
      (∀ f (hf : f ∈ fields), motive f.2 (plainFields_iff.mp h.2 f hf)) → motive (.table fields) h)
    {t : LuaValue} (h : Plain t) : motive t h := by
  induction t using LuaValue.fieldInduction with
  | scalar t ht =>
    cases t with
    | string s => exact string s
    | boolean b => exact boolean b
    | integer n => exact integer n
    | number bits => exact number bits
    | nil => exact h.elim
    | bytes b => exact h.elim
    | view path => exact h.elim
    | table fields => cases ht
  | table fields ih => exact table fields h fun f hf => ih f hf _

/-- Fields keep their strings if each value does. -/
theorem keepsFields_iff {room : ℕ} {fields : Fields} :
    KeepsFields room fields ↔ ∀ f ∈ fields, Keeps room f.2 := by
  induction fields with
  | nil => simp [KeepsFields]
  | cons f rest ih => simp [KeepsFields, ih]

/-- The strings of a table are those of its fields. -/
theorem stringsFields_eq (fields : Fields) :
    stringsFields fields =
      fields.flatMap (fun f => (strings f.2).map (fun e => (f.1 :: e.1, e.2))) := by
  induction fields with
  | nil => rfl
  | cons f rest ih => rw [stringsFields, ih, List.flatMap_cons]

/-- A string of a table is one of some field, below its key. -/
theorem mem_stringsFields {fields : Fields} {e : Path × Bytes} :
    e ∈ stringsFields fields ↔ ∃ f ∈ fields, ∃ π, (π, e.2) ∈ strings f.2 ∧ e.1 = f.1 :: π := by
  rw [stringsFields_eq, List.mem_flatMap]
  refine exists_congr fun f => and_congr_right fun _ => ?_
  rw [List.mem_map]
  constructor
  · rintro ⟨⟨π, s⟩, hmem, rfl⟩
    exact ⟨π, hmem, rfl⟩
  · rintro ⟨π, hmem, he⟩
    exact ⟨(π, e.2), hmem, Prod.ext he.symm rfl⟩

/-- The keys of a plain table are distinct. -/
theorem distinct_of_plain {fields : Fields} (h : IsSequence fields ∨ IsRecord fields) :
    Assoc.Distinct fields := by
  rcases h with h | h
  · refine h.nodup_iff.mpr ((List.nodup_range' 1).map ?_)
    intro i j hij
    rw [LuaKey.integer.injEq] at hij
    omega
  · exact h.1

/-! ## The fields that are seen -/

/-- The field is not replaced by a later one. -/
def Visible (fields : Fields) (f : LuaKey × LuaValue) : Prop :=
  f ∈ fields ∧ ∀ g, [f, g].Sublist fields → placeOf g.1 ≠ placeOf f.1

/-- Two items stand in a list in this order, or the second is the last one. -/
private theorem pair_sublist_concat {α : Type} {l : List α} {a b c : α} :
    [a, b].Sublist (l ++ [c]) ↔ [a, b].Sublist l ∨ a ∈ l ∧ b = c := by
  constructor
  · intro h
    obtain ⟨l₁, l₂, heq, h₁, h₂⟩ := List.sublist_append_iff.mp h
    rcases List.sublist_singleton.mp h₂ with rfl | rfl
    · left
      rwa [heq, List.append_nil]
    · right
      obtain ⟨rfl, rfl⟩ : l₁ = [a] ∧ b = c := by
        cases l₁ with
        | nil => simp at heq
        | cons x l₁ =>
          cases l₁ with
          | nil => simpa [eq_comm] using heq
          | cons y l₁ => simp at heq
      exact ⟨List.singleton_sublist.mp h₁, rfl⟩
  · rintro (h | ⟨ha, rfl⟩)
    · exact h.trans (List.sublist_append_left _ _)
    · exact (List.singleton_sublist.mpr ha).append (List.Sublist.refl [b])

/-- A field that is added at the end is seen and hides those with the same place. -/
theorem visible_concat {fields : Fields} {f g : LuaKey × LuaValue} (hf : f ∉ fields) :
    Visible (fields ++ [f]) g ↔ g = f ∨ Visible fields g ∧ placeOf f.1 ≠ placeOf g.1 := by
  constructor
  · rintro ⟨hmem, hlater⟩
    rcases List.mem_append.mp hmem with hmem | hmem
    · refine .inr ⟨⟨hmem, fun h hsub => hlater h ?_⟩, hlater f ?_⟩
      · exact pair_sublist_concat.mpr (.inl hsub)
      · exact pair_sublist_concat.mpr (.inr ⟨hmem, rfl⟩)
    · exact .inl (List.mem_singleton.mp hmem)
  · rintro (rfl | ⟨⟨hmem, hlater⟩, hne⟩)
    · refine ⟨by simp, fun h hsub => ?_⟩
      rcases pair_sublist_concat.mp hsub with hsub | ⟨hmem, -⟩
      · exact absurd (hsub.subset (by simp)) hf
      · exact absurd hmem hf
    · refine ⟨List.mem_append_left _ hmem, fun h hsub => ?_⟩
      rcases pair_sublist_concat.mp hsub with hsub | ⟨-, rfl⟩
      · exact hlater h hsub
      · exact hne

/-! ## One level -/

section Level

variable (fl : Floats) (lazy : ℕ → Path → Conversion)

/-- The entries a map with string keys becomes: one for each field that is seen. -/
theorem mem_insertFields {room : ℕ} {fields : Fields} (hnodup : fields.Nodup)
    (hkeys : ∀ f ∈ fields, ∃ s, f.1 = .string s)
    (hok : ∀ f ∈ fields, ∃ w, toQVar fl lazy room f.2 = .ok w) :
    (((toQVarFields fl lazy room fields).foldl (insertField fl) []).map Prod.fst).Pairwise (· < ·) ∧
      ∀ e, e ∈ (toQVarFields fl lazy room fields).foldl (insertField fl) [] ↔
        ∃ f, Visible fields f ∧ placeOf f.1 = .key e.1 ∧ toQVar fl lazy room f.2 = .ok e.2 := by
  rw [toQVarFields_eq]
  induction fields using List.reverseRecOn with
  | nil => simp [Visible]
  | append_singleton fields f ih =>
    obtain ⟨hfields, -, hdisjoint⟩ := List.nodup_append.mp hnodup
    have hf : f ∉ fields := fun hmem => hdisjoint f hmem f (by simp) rfl
    obtain ⟨hsorted, hmem⟩ := ih hfields (fun g hg => hkeys g (List.mem_append_left _ hg))
      (fun g hg => hok g (List.mem_append_left _ hg))
    obtain ⟨s, hs⟩ := hkeys f (by simp)
    obtain ⟨w, hw⟩ := hok f (by simp)
    rw [List.map_append, List.foldl_append, List.map_singleton, List.foldl_cons, List.foldl_nil,
      hs, hw]
    refine ⟨ascending_updateEntry hsorted, fun e => ?_⟩
    rw [insertField, fieldKey, mem_updateEntry hsorted, hmem]
    constructor
    · rintro (rfl | ⟨⟨g, hg, hplace, hconv⟩, hne⟩)
      · exact ⟨f, (visible_concat hf).mpr (.inl rfl), by rw [hs, placeOf], hw⟩
      · refine ⟨g, (visible_concat hf).mpr (.inr ⟨hg, ?_⟩), hplace, hconv⟩
        rw [hplace, hs, placeOf]
        intro heq
        exact hne (Selector.key.inj heq).symm
    · rintro ⟨g, hg, hplace, hconv⟩
      rcases (visible_concat hf).mp hg with rfl | ⟨hg, hne⟩
      · rw [hs, placeOf] at hplace
        rw [hw] at hconv
        exact .inl (Prod.ext (Selector.key.inj hplace).symm (Except.ok.inj hconv).symm)
      · refine .inr ⟨⟨g, hg, hplace, hconv⟩, fun heq => hne ?_⟩
        rw [hplace, heq, hs, placeOf]

/-- The values of a list without holes are found under its indices. -/
theorem IsSequence.exists_field {fields : Fields} (h : IsSequence fields) {i : ℕ} :
    (∃ w, (.integer ((i + 1 : ℕ) : ℤ), w) ∈ fields) ↔ i < fields.length := by
  have hkey := h.mem_iff (a := .integer ((i + 1 : ℕ) : ℤ))
  rw [List.mem_map, List.mem_map] at hkey
  constructor
  · rintro ⟨w, hw⟩
    obtain ⟨j, hj, heq⟩ := hkey.mp ⟨_, hw, rfl⟩
    rw [List.mem_range'_1] at hj
    rw [LuaKey.integer.injEq] at heq
    omega
  · intro hi
    obtain ⟨⟨k, w⟩, hw, hk⟩ := hkey.mpr ⟨i + 1, by rw [List.mem_range'_1]; omega, rfl⟩
    exact ⟨w, by rw [← hk]; exact hw⟩

/-- The keys of a list without holes. -/
theorem IsSequence.key {fields : Fields} (h : IsSequence fields) {f : LuaKey × LuaValue}
    (hf : f ∈ fields) : ∃ i < fields.length, f.1 = .integer ((i + 1 : ℕ) : ℤ) := by
  obtain ⟨j, hj, heq⟩ := List.mem_map.mp (h.mem_iff.mp (List.mem_map_of_mem hf))
  rw [List.mem_range'_1] at hj
  refine ⟨j - 1, by omega, ?_⟩
  rw [← heq, LuaKey.integer.injEq]
  omega

/-- Every field of a list without holes is seen. -/
theorem IsSequence.visible {fields : Fields} (h : IsSequence fields) {f : LuaKey × LuaValue}
    (hf : f ∈ fields) : Visible fields f := by
  refine ⟨hf, fun g hsub hplace => ?_⟩
  have hdistinct := distinct_of_plain (.inl h)
  have hpair := (hsub.map Prod.fst).nodup hdistinct
  obtain ⟨i, -, hi⟩ := h.key hf
  obtain ⟨j, -, hj⟩ := h.key (hsub.subset (by simp : g ∈ [f, g]))
  rw [hi, hj, placeOf, placeOf, Selector.index.injEq] at hplace
  have hij : i = j := by omega
  apply (List.nodup_cons.mp hpair).1
  rw [List.map_singleton, List.mem_singleton, hi, hj, hij]

/-- The conversion of the field under an index. -/
theorem lookup_toQVarFields {room : ℕ} {fields : Fields} (hdistinct : Assoc.Distinct fields)
    {k : LuaKey} {w : LuaValue} (hw : (k, w) ∈ fields) :
    (toQVarFields fl lazy room fields).lookup k = some (toQVar fl lazy room w) := by
  rw [toQVarFields_eq]
  apply Assoc.lookup_of_mem
  · rw [Assoc.Distinct, List.map_map]
    exact hdistinct
  · exact List.mem_map.mpr ⟨(k, w), hw, rfl⟩

/-- The items a list without holes becomes. -/
theorem collectList_sequence {room : ℕ} {fields : Fields} (h : IsSequence fields)
    (hok : ∀ f ∈ fields, ∃ w, toQVar fl lazy room f.2 = .ok w) :
    ∃ items, collectList (toQVarFields fl lazy room fields) fields.length 1 = .ok items ∧
      ∀ i v, items[i]? = some v ↔
        ∃ w, (.integer ((i + 1 : ℕ) : ℤ), w) ∈ fields ∧ toQVar fl lazy room w = .ok v := by
  have hdistinct := distinct_of_plain (.inl h)
  have hitem : ∀ i : Fin fields.length, ∃ v w, (.integer ((i.val + 1 : ℕ) : ℤ), w) ∈ fields ∧
      toQVar fl lazy room w = .ok v := by
    intro i
    obtain ⟨w, hw⟩ := h.exists_field.mpr i.isLt
    obtain ⟨v, hv⟩ := hok _ hw
    exact ⟨v, w, hw, hv⟩
  choose item hitem using hitem
  have hget : ∀ i v, (List.ofFn item)[i]? = some v ↔
      ∃ w, (.integer ((i + 1 : ℕ) : ℤ), w) ∈ fields ∧ toQVar fl lazy room w = .ok v := by
    intro i v
    rw [List.getElem?_eq_some_iff]
    constructor
    · rintro ⟨hi, rfl⟩
      rw [List.length_ofFn] at hi
      rw [List.getElem_ofFn]
      exact hitem ⟨i, hi⟩
    · rintro ⟨w, hw, hv⟩
      have hi := h.exists_field.mp ⟨w, hw⟩
      refine ⟨by rwa [List.length_ofFn], ?_⟩
      obtain ⟨w', hw', hv'⟩ := hitem ⟨i, hi⟩
      have hsame : some w = some w' := by
        rw [← Assoc.lookup_of_mem hdistinct hw, ← Assoc.lookup_of_mem hdistinct hw']
      rw [Option.some.inj hsame, hv'] at hv
      rw [List.getElem_ofFn]
      exact Except.ok.inj hv
  refine ⟨List.ofFn item, collectList_eq ?_ ?_ (by rw [List.length_ofFn]), hget⟩
  · intro j v hj
    obtain ⟨w, hw, hv⟩ := (hget j v).mp hj
    rw [show 1 + j = j + 1 by omega, lookup_toQVarFields fl lazy hdistinct hw, hv]
  · rw [List.length_ofFn, List.lookup_eq_none_iff, toQVarFields_eq]
    intro f hf
    obtain ⟨g, hg, rfl⟩ := List.mem_map.mp hf
    obtain ⟨i, hi, hkey⟩ := h.key hg
    simp only [hkey, bne_iff_ne, ne_eq, LuaKey.integer.injEq]
    omega

/-- A field with an integer key is in no record. -/
theorem IsRecord.rawget_one {fields : Fields} (h : IsRecord fields) :
    rawget fields (.integer 1) = .nil := by
  by_contra hne
  obtain ⟨s, hs⟩ := h.2 _ (mem_of_rawget hne)
  cases hs

/-- A plain value is not `nil`. -/
theorem Plain.ne_nil {t : LuaValue} (h : Plain t) : t ≠ .nil := by
  rintro rfl
  exact h

/-- The leaves of the message that a record becomes are those of the fields that are seen. -/
theorem toQVar_record {room : ℕ} {fields : Fields} (h : IsRecord fields) (hroom : 3 ≤ room)
    (hok : ∀ f ∈ fields, ∃ w, toQVar fl lazy (room - 3) f.2 = .ok w) :
    ∃ v, toQVar fl lazy room (.table fields) = .ok v ∧ ∀ e, e ∈ places v ↔
      ∃ f w σ, Visible fields f ∧ toQVar fl lazy (room - 3) f.2 = .ok w ∧
        (σ, e.2) ∈ places w ∧ e.1 = placeOf f.1 :: σ := by
  have hall : ∀ f ∈ toQVarFields fl lazy (room - 3) fields, ∃ w, f.2 = .ok w := by
    rw [toQVarFields_eq]
    intro f hf
    obtain ⟨g, hg, rfl⟩ := List.mem_map.mp hf
    exact hok g hg
  have hmem := (mem_insertFields fl lazy h.1.of_map h.2 hok).2
  refine ⟨.map ((toQVarFields fl lazy (room - 3) fields).foldl (insertField fl) []), ?_, ?_⟩
  · rw [toQVar, if_neg (by omega), if_pos (LuaValue.isNil_iff.mpr h.rawget_one),
      collectMap_ok fl hall]
  · intro e
    rw [places, mem_placesMap]
    constructor
    · rintro ⟨k, w, σ, hentry, hσ, he⟩
      obtain ⟨f, hf, hplace, hw⟩ := (hmem (k, w)).mp hentry
      exact ⟨f, w, σ, hf, hw, hσ, by rw [he, hplace]⟩
    · rintro ⟨f, w, σ, hf, hw, hσ, he⟩
      obtain ⟨s, hs⟩ := h.2 f hf.1
      have hplace : placeOf f.1 = .key (stringKey s) := by rw [hs, placeOf]
      exact ⟨stringKey s, w, σ, (hmem (_, w)).mpr ⟨f, hf, hplace, hw⟩, hσ, by rw [he, hplace]⟩

/-- The leaves of the message that a list without holes becomes are those of its fields. -/
theorem toQVar_sequence {room : ℕ} {fields : Fields} (h : IsSequence fields)
    (hone : rawget fields (.integer 1) ≠ .nil) (hroom : 3 ≤ room)
    (hok : ∀ f ∈ fields, ∃ w, toQVar fl lazy (room - 2) f.2 = .ok w) :
    ∃ v, toQVar fl lazy room (.table fields) = .ok v ∧ ∀ e, e ∈ places v ↔
      ∃ f w σ, Visible fields f ∧ toQVar fl lazy (room - 2) f.2 = .ok w ∧
        (σ, e.2) ∈ places w ∧ e.1 = placeOf f.1 :: σ := by
  obtain ⟨items, hcollect, hitems⟩ := collectList_sequence fl lazy h hok
  refine ⟨.list items, ?_, ?_⟩
  · rw [toQVar, if_neg (by omega), if_neg (by simpa using hone), hcollect]
  · intro e
    rw [places, mem_placesList]
    constructor
    · rintro ⟨i, v, σ, hi, hσ, he⟩
      obtain ⟨w, hw, hv⟩ := (hitems i v).mp hi
      refine ⟨_, v, σ, h.visible hw, hv, hσ, ?_⟩
      rw [he, placeOf, Nat.zero_add, Int.toNat_natCast, Nat.add_sub_cancel]
    · rintro ⟨f, w, σ, hf, hw, hσ, he⟩
      obtain ⟨i, -, hi⟩ := h.key hf.1
      refine ⟨i, w, σ, (hitems i w).mpr ⟨f.2, by rw [← hi]; exact hf.1, hw⟩, hσ, ?_⟩
      rw [he, hi, placeOf, Nat.zero_add, Int.toNat_natCast, Nat.add_sub_cancel]

/-- The leaves of the message a plain table becomes are those of the fields that are seen. -/
theorem toQVar_table {room : ℕ} {fields : Fields} (h : Plain (.table fields)) (hroom : 3 ≤ room)
    (hok : ∀ f ∈ fields, ∃ w, toQVar fl lazy (roomBelow fields room) f.2 = .ok w) :
    ∃ v, toQVar fl lazy room (.table fields) = .ok v ∧ ∀ e, e ∈ places v ↔
      ∃ f w σ, Visible fields f ∧ toQVar fl lazy (roomBelow fields room) f.2 = .ok w ∧
        (σ, e.2) ∈ places w ∧ e.1 = placeOf f.1 :: σ := by
  obtain ⟨hkind, hvalues⟩ := h
  rw [plainFields_iff] at hvalues
  by_cases hone : rawget fields (.integer 1) = .nil
  · -- no field `1`: a map, and a list without holes only when it is empty
    have hrecord : IsRecord fields := by
      rcases hkind with hseq | hrecord
      · obtain rfl : fields = [] := by
          by_contra hne
          obtain ⟨w, hw⟩ := hseq.exists_field.mpr (List.length_pos_of_ne_nil hne)
          apply rawget_ne_nil (List.mem_map.mpr ⟨_, hw, rfl⟩) (fun f hf => (hvalues f hf).ne_nil)
          exact hone
        exact ⟨List.nodup_nil, by simp⟩
      · exact hrecord
    have hbelow : roomBelow fields room = room - 3 := by rw [roomBelow, hone]; rfl
    rw [hbelow] at hok ⊢
    exact toQVar_record fl lazy hrecord hroom hok
  · have hseq : IsSequence fields := by
      rcases hkind with hseq | hrecord
      · exact hseq
      · exact absurd hrecord.rawget_one hone
    have hbelow : roomBelow fields room = room - 2 := by
      rw [roomBelow, if_neg (by simpa using hone)]
    rw [hbelow] at hok ⊢
    exact toQVar_sequence fl lazy hseq hone hroom hok

end Level

end Radapter.Lua
