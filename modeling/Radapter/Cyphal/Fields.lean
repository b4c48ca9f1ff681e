import Radapter.Cyphal.Conversion
import Radapter.Unicode

/-!
# Members there and back

For each attribute of a member, what the conversion to a message and the one back do to its value.
Bit arrays, unique IDs and texts lose something; bit masks and enumerators do not.
-/

namespace Radapter.Cyphal

open Library

variable (platform : Platform)

/-! ## Scalars and names -/

/-- A scalar is read back. -/
@[simp] theorem valueAs_value (t : ScalarType) (x : t.Value) :
    (Variant.value t x).valueAs platform t = x := by
  simp [Variant.valueAs]

/-- Latin-1 texts are read back. -/
@[simp] theorem toLatin1_fromLatin1 (name : Bytes) : toLatin1 (fromLatin1 name) = name := by
  rw [toLatin1, fromLatin1, List.map_map]
  conv_rhs => rw [← List.map_id name]
  apply List.map_congr_left
  intro b _
  have hb : (UInt16.ofNat b.toNat).toNat = b.toNat := by
    rw [UInt16.toNat_ofNat', Nat.mod_eq_of_lt]
    have := b.toNat_lt
    omega
  rw [Function.comp_apply, hb, if_pos b.toNat_lt, UInt8.ofNat_toNat, id_eq]

/-- Bytes are read as different characters. -/
theorem fromLatin1_injective : Function.Injective fromLatin1 :=
  Function.LeftInverse.injective toLatin1_fromLatin1

/-! ## Bits -/

/-- The bits that come back are those that do not lie behind the size of a pointer. -/
theorem bitArrayOfList_eq_iff {capacity : ℕ} (x : BitArray capacity)
    (h : ((bitArrayToVariant platform x).map
      (fun item => item.valueAs platform .bool)).length ≤ bitpackedSize capacity) :
    bitArrayOfList platform _ h = x ↔
      ∀ i, x.bitpacked.getLsbD i = true → i < 8 * platform.pointer := by
  have hbits : (bitArrayToVariant platform x).map (fun item => item.valueAs platform .bool) =
      (List.range x.count).map (platform.nunavutGetBit x.bitpacked platform.pointer) := by
    rw [bitArrayToVariant, List.map_map]
    rfl
  have hlength := x.count_le
  have hsize : (List.range x.count).length ≤ bitpackedSize capacity := by
    simpa [bitArrayToVariant] using h
  rw [List.length_range] at hsize
  -- The bit at an index of the array is what `nunavutGetBit` reads there.
  have hget (j : ℕ) : (bitArrayOfList platform _ h).bitpacked.getLsbD j =
      (decide (j < x.count) && platform.nunavutGetBit x.bitpacked platform.pointer j) := by
    simp only [bitArrayOfList, hbits]
    rw [getLsbD_setBits platform (Nat.le_refl _)
      (by rw [List.length_map, List.length_range]; omega), if_pos (Nat.zero_le j), Nat.sub_zero,
      List.getD_eq_getElem?_getD, List.getElem?_map, BitVec.getLsbD_zero]
    by_cases hj : j < x.count
    · simp [hj]
    · simp [hj]
  have hinside {j : ℕ} (hj : x.bitpacked.getLsbD j = true) :
      j < x.count ∧ j < 8 * bitpackedSize capacity := by
    refine ⟨?_, BitVec.lt_of_getLsbD hj⟩
    by_contra hbehind
    simp [x.clear_behind j (Nat.le_of_not_lt hbehind)] at hj
  constructor
  · intro heq i hi
    have hread := hget i
    rw [heq, hi] at hread
    by_contra hbehind
    simp [platform.getBit_behind x.bitpacked (Nat.le_of_not_lt hbehind)] at hread
  · intro hpointer
    apply BitArray.ext
    · apply BitVec.eq_of_getLsbD_eq
      intro j hj
      rw [hget]
      by_cases hcount : j < x.count
      · by_cases hp : j < 8 * platform.pointer
        · rw [platform.getBit_inside _ hp hj]
          simp [hcount]
        · rw [platform.getBit_behind _ (Nat.le_of_not_lt hp), Bool.and_false]
          symm
          rw [← Bool.not_eq_true]
          exact fun hset => hp (hpointer j hset)
      · simp [hcount, x.clear_behind j (Nat.le_of_not_lt hcount)]
    · simp [bitArrayOfList, bitArrayToVariant]

/-- A bit array comes back if it has at most as many bits as bytes, and no bit behind the size of a
pointer is set. -/
theorem bitArray_comes_back_iff {capacity : ℕ} (x : BitArray capacity) (owner : String)
    (frame : TraceFrame) :
    bitArrayFromVariant platform capacity owner (.list (bitArrayToVariant platform x)) frame =
        .ok x ↔
      x.count ≤ bitpackedSize capacity ∧
        ∀ i, x.bitpacked.getLsbD i = true → i < 8 * platform.pointer := by
  have hlength : ((bitArrayToVariant platform x).map
      (fun item => item.valueAs platform .bool)).length = x.count := by
    simp [bitArrayToVariant]
  simp only [bitArrayFromVariant]
  by_cases hcount : x.count ≤ bitpackedSize capacity
  · rw [dif_pos (hlength ▸ hcount), Except.ok.injEq,
      bitArrayOfList_eq_iff platform x (hlength ▸ hcount)]
    exact ⟨fun h => ⟨hcount, h⟩, And.right⟩
  · rw [dif_neg (hlength ▸ hcount)]
    simp [hcount]

/-- The loop of a bit mask sets the bits with the numbers of the list. -/
theorem bitmaskOfList_numbers {bytes : ℕ} (hbytes : 8 * bytes ≤ 2 ^ 32) (where_ : String)
    {numbers : List ℕ} (hnumbers : ∀ k ∈ numbers, k < 8 * bytes) (i : ℕ)
    (field : BitVec (8 * bytes)) :
    ∃ res, bitmaskOfList platform where_ i
        (numbers.map (fun k => .value .uint32_t (UInt32.ofNat k))) field = .ok res ∧
      ∀ j, res.getLsbD j = (decide (j ∈ numbers) || field.getLsbD j) := by
  induction numbers generalizing i field with
  | nil => exact ⟨field, rfl, by simp⟩
  | cons k rest ih =>
    have hk := hnumbers k (by simp)
    have hu : (UInt32.ofNat k).toNat = k := by
      rw [UInt32.toNat_ofNat', Nat.mod_eq_of_lt (by omega)]
    obtain ⟨res, hres, hbits⟩ := ih (fun j hj => hnumbers j (List.mem_cons_of_mem _ hj)) (i + 1)
      (platform.nunavutSetBit field bytes k true)
    refine ⟨res, ?_, ?_⟩
    · rw [List.map_cons, bitmaskOfList]
      simp only [Variant.asUInt, hu]
      rw [if_neg (by omega), hres]
    · intro j
      rw [hbits, platform.getLsbD_setBit field true hk (Nat.le_refl _)]
      by_cases hj : j = k
      · simp [hj]
      · simp [hj]

/-- A bit mask comes back. -/
theorem bitmask_comes_back {bytes : ℕ} (hbytes : 8 * bytes ≤ 2 ^ 32) (x : BitVec (8 * bytes))
    (owner : String) (frame : TraceFrame) :
    bitmaskFromVariant platform bytes owner (.list (bitmaskToVariant platform x)) frame =
      .ok x := by
  obtain ⟨res, hres, hbits⟩ := @bitmaskOfList_numbers platform bytes hbytes
    s!"{owner}: {platform.trace frame}"
    ((List.range (8 * bytes)).filter (fun i => platform.nunavutGetBit x bytes i))
    (fun k hk => List.mem_range.mp (List.mem_filter.mp hk).1) 0 0#_
  rw [bitmaskFromVariant, bitmaskToVariant, hres]
  congr 1
  apply BitVec.eq_of_getLsbD_eq
  intro j hj
  rw [hbits, BitVec.getLsbD_zero, Bool.or_false]
  simp [hj, platform.getBit_inside x hj hj]

/-! ## Texts -/

/-- The digits of a number in base 16 are those of numbers below 16. -/
private theorem exists_of_mem_toDigits {n : ℕ} {c : Char} (hc : c ∈ Nat.toDigits 16 n) :
    ∃ d < 16, c = d.digitChar := by
  induction n using Nat.strongRecOn with
  | ind n ih =>
    rw [Nat.toDigits_eq_if (by decide)] at hc
    split at hc
    · next hn => exact ⟨n, hn, List.mem_singleton.mp hc⟩
    · rcases List.mem_append.mp hc with hc | hc
      · exact ih (n / 16) (by omega) hc
      · exact ⟨n % 16, by omega, List.mem_singleton.mp hc⟩

/-- No hexadecimal digit is a hyphen. -/
private theorem formatHex_ne_hyphen {byte b : UInt8} (hb : b ∈ formatHex byte) :
    UInt16.ofNat b.toNat ≠ 45 := by
  obtain ⟨c, hc, rfl⟩ := List.mem_map.mp hb
  obtain ⟨d, hd, rfl⟩ := exists_of_mem_toDigits hc
  have hdigits : ∀ d < 16, UInt16.ofNat (UInt8.ofNat d.digitChar.toNat).toNat ≠ 45 := by decide
  exact hdigits d hd

/-- The text of a unique ID has no hyphens. -/
theorem not_mem_uniqueIdText (x : Vector UInt8 uniqueIdSize) :
    45 ∉ fromLatin1 (uniqueIdText x) := by
  intro hmem
  obtain ⟨b, hb, hhyphen⟩ := List.mem_map.mp hmem
  obtain ⟨byte, -, hb⟩ := List.mem_flatMap.mp hb
  exact formatHex_ne_hyphen hb hhyphen

/-- A unique ID is read as the null one. -/
theorem uniqueId_comes_back_iff (x : Vector UInt8 uniqueIdSize) (owner : String)
    (frame : TraceFrame) :
    uniqueIdFromVariant platform owner (.string (fromLatin1 (uniqueIdText x))) frame = .ok x ↔
      x = Vector.replicate uniqueIdSize 0 := by
  rw [uniqueIdFromVariant, platform.toRfc4122_plain (not_mem_uniqueIdText x),
    Variant.canConvertToUuid, if_pos rfl, Except.ok.injEq]
  exact eq_comm

/-- A dynamic text comes back if it has no byte-order mark and leaves room for the NUL. -/
theorem dynString_comes_back_iff {capacity : ℕ} (hpos : 0 < capacity) (hsmall : capacity < 2 ^ 31)
    (x : {elements : Bytes // elements.length ≤ capacity})
    (hvalid : ∃ s, validUtf16 s = true ∧ toStdString s = x.val) (owner : String)
    (frame : TraceFrame) :
    dynStringFromVariant platform capacity owner
        (.string (fromUtf8Sized x.val x.val.length)) frame = .ok x ↔
      x.val.length < capacity ∧ x.val.take 3 ≠ [0xEF, 0xBB, 0xBF] := by
  obtain ⟨elements, hcapacity⟩ := x
  obtain ⟨s, hs, rfl⟩ := hvalid
  have hread := fromUtf8Sized_of_lt (show (toStdString s).length < 2 ^ 31 by omega) []
  rw [List.append_nil] at hread
  simp only [dynStringFromVariant, hread]
  rw [← toStdString_fromUtf8_iff hs]
  by_cases hlength : (toStdString (fromUtf8 (toStdString s))).length ≤ capacity - 1
  · rw [dif_pos hlength, Except.ok.injEq, Subtype.mk.injEq]
    constructor
    · intro hsame
      rw [hsame] at hlength
      exact ⟨by omega, hsame⟩
    · exact And.right
  · rw [dif_neg hlength]
    refine iff_of_false (by simp) ?_
    rintro ⟨hroom, hsame⟩
    rw [hsame] at hlength
    omega

/-! ## Enumerators -/

/-- The name of an enumerator stands for its value. -/
theorem EnumDescription.name_to_enum_of_enum_to_name {e : EnumDescription}
    (hnames : (e.map Prod.fst).Nodup) {value : UInt8} (hvalue : value ∈ e.map Prod.snd) :
    ∃ name ∈ e.map Prod.fst, e.enum_to_name value = some name ∧
      e.name_to_enum name = some value := by
  obtain ⟨enumerator, hmem, hsnd⟩ := List.mem_map.mp hvalue
  have hsome : (e.find? (fun enumerator => enumerator.2 = value)).isSome = true := by
    rw [List.find?_isSome]
    exact ⟨enumerator, hmem, by simpa using hsnd⟩
  obtain ⟨found, hfound⟩ := Option.isSome_iff_exists.mp hsome
  have hfoundMem := List.mem_of_find?_eq_some hfound
  have hfoundValue : found.2 = value := by simpa using List.find?_some hfound
  refine ⟨found.1, List.mem_map_of_mem hfoundMem, ?_, ?_⟩
  · rw [EnumDescription.enum_to_name, hfound]
    rfl
  · apply Assoc.lookup_of_mem hnames
    rw [← hfoundValue]
    exact hfoundMem

/-- An enumerator comes back. -/
theorem enum_comes_back {e : EnumDescription} (hnames : (e.map Prod.fst).Nodup)
    (hempty : [] ∉ e.map Prod.fst) {value : UInt8} (hvalue : value ∈ e.map Prod.snd) :
    ∃ name, e.enum_to_name value = some name ∧ ∀ owner frame,
      enumFromVariant platform e owner (.string (fromLatin1 name)) frame = .ok value := by
  obtain ⟨name, hmem, hto, hfrom⟩ := e.name_to_enum_of_enum_to_name hnames hvalue
  refine ⟨name, hto, fun owner frame => ?_⟩
  have hne : fromLatin1 name ≠ [] := by
    intro hnil
    rw [fromLatin1, List.map_eq_nil_iff] at hnil
    exact hempty (hnil ▸ hmem)
  simp only [enumFromVariant, Variant.asString, if_neg hne, toLatin1_fromLatin1, hfrom]

/-! ## Arrays -/

/-- Items come back if each of them does. -/
theorem items_come_back {α : Type} {to_variant : α → TraceFrame → Except String Variant}
    {from_variant : Variant → TraceFrame → Except String α} {Kept : α → Prop} {items : List α}
    (hitems : ∀ x ∈ items, ∀ frame, ∃ v, to_variant x frame = .ok v ∧
      ∀ frame', from_variant v frame' = .ok x ↔ Kept x) (frame : TraceFrame) (i : ℕ) :
    ∃ vs, itemsToVariant to_variant frame i items = .ok vs ∧ vs.length = items.length ∧
      ∀ frame' j, ((itemsFromVariant from_variant frame' j vs).map Subtype.val = .ok items ↔
        ∀ x ∈ items, Kept x) := by
  induction items generalizing i with
  | nil => exact ⟨[], rfl, rfl, fun _ _ => by simp [itemsFromVariant, Except.map]⟩
  | cons x rest ih =>
    obtain ⟨v, hv, hkept⟩ := hitems x (by simp) (.inr i :: frame)
    obtain ⟨vs, hvs, hlength, hrest⟩ :=
      ih (fun y hy => hitems y (List.mem_cons_of_mem _ hy)) (i + 1)
    refine ⟨v :: vs, ?_, by rw [List.length_cons, hlength, List.length_cons], ?_⟩
    · rw [itemsToVariant, hv, hvs]
      rfl
    · intro frame' j
      rw [List.forall_mem_cons, ← hkept (.inr j :: frame'), ← hrest frame' (j + 1),
        itemsFromVariant]
      cases from_variant v (.inr j :: frame') with
      | error text => simp [Bind.bind, Except.bind, Except.map]
      | ok y =>
        cases itemsFromVariant from_variant frame' (j + 1) vs with
        | error text => simp [Bind.bind, Except.bind, Except.map]
        | ok ys => simp [Bind.bind, Except.bind, Except.map]

/-- An array with a length comes back if its items do. -/
theorem dynArray_comes_back {α : Type} {to_variant : α → TraceFrame → Except String Variant}
    {from_variant : Variant → TraceFrame → Except String α} {Kept : α → Prop} {capacity : ℕ}
    (x : {elements : List α // elements.length ≤ capacity})
    (hitems : ∀ y ∈ x.val, ∀ frame, ∃ v, to_variant y frame = .ok v ∧
      ∀ frame', from_variant v frame' = .ok y ↔ Kept y) (frame : TraceFrame) :
    ∃ vs, itemsToVariant to_variant frame 0 x.val = .ok vs ∧ ∀ owner frame',
      dynArrayFromVariant platform from_variant capacity owner (.list vs) frame' = .ok x ↔
        ∀ y ∈ x.val, Kept y := by
  obtain ⟨vs, hto, hlength, hfrom⟩ := items_come_back hitems frame 0
  refine ⟨vs, hto, fun owner frame' => ?_⟩
  simp only [dynArrayFromVariant, Variant.toList]
  rw [dif_pos (hlength ▸ x.property), ← hfrom frame' 0]
  cases itemsFromVariant from_variant frame' 0 vs with
  | error text => simp [Bind.bind, Except.bind, Except.map]
  | ok ys => simp [Bind.bind, Except.bind, Except.map, Subtype.ext_iff]

/-- A fixed array comes back if its items do. -/
theorem array_comes_back {α : Type} {to_variant : α → TraceFrame → Except String Variant}
    {from_variant : Variant → TraceFrame → Except String α} {Kept : α → Prop} {size : ℕ}
    (x : {elements : List α // elements.length = size})
    (hitems : ∀ y ∈ x.val, ∀ frame, ∃ v, to_variant y frame = .ok v ∧
      ∀ frame', from_variant v frame' = .ok y ↔ Kept y) (frame : TraceFrame) :
    ∃ vs, itemsToVariant to_variant frame 0 x.val = .ok vs ∧ ∀ owner frame',
      arrayFromVariant platform from_variant size owner (.list vs) frame' = .ok x ↔
        ∀ y ∈ x.val, Kept y := by
  obtain ⟨vs, hto, hlength, hfrom⟩ := items_come_back hitems frame 0
  refine ⟨vs, hto, fun owner frame' => ?_⟩
  simp only [arrayFromVariant, Variant.toList]
  rw [dif_pos (hlength.trans x.property), ← hfrom frame' 0]
  cases itemsFromVariant from_variant frame' 0 vs with
  | error text => simp [Bind.bind, Except.bind, Except.map]
  | ok ys => simp [Bind.bind, Except.bind, Except.map, Subtype.ext_iff]

end Radapter.Cyphal
