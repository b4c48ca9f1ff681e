import Radapter.Cyphal.Numbers
import Radapter.Cyphal.StructRoundTrip
import Radapter.Lua.Strings
import Radapter.Library.Results

/-!
# Messages there and back

A message that is read into a struct should be what the struct is turned into again, as far as
the type has members for it. The induction runs over the description of the type, and for each kind
of member the file says which messages are read as they are.

The others that are accepted are changed without an error. A mask takes its own size for the number
of a bit, which is one behind the last, and that bit is lost. A number that the type of a member
does not have becomes another one, and a value that is no number becomes one.
-/

namespace Radapter.Cyphal

open Library

variable (platform : Platform)

/-! ## Messages that are the same -/

mutual

/-- Two messages are the same for a type: up to the types of numbers, up to the order and
the repetitions of the bits of a mask, and the second one has the members of the type only. -/
def Described.Same : Described → Variant → Variant → Prop
  | .scalar _, v, w => v.SameScalar w
  | .record _ members, v, w =>
      ∃ entries entries', v = .map entries ∧ w = .map entries' ∧
        (∀ key, key ∈ entries'.map Prod.fst ↔ key ∈ members.names.map fromLatin1) ∧
        members.Same entries entries'
  | .union _ _ members, v, w =>
      ∃ entries entries', v = .map entries ∧ w = .map entries' ∧ members.SameOne entries entries'

/-- Two messages are the same for a member. -/
def Member.Same : Member → Variant → Variant → Prop
  | .FieldIsBitArray _, v, w => v = w
  | .FieldIsUniqueID, v, w => v = w
  | .FieldIsBitmask _, v, w =>
      ∃ list list', v = .list list ∧ w = .list list' ∧
        (∀ a ∈ list, ∃ b ∈ list', a.SameScalar b) ∧ ∀ b ∈ list', ∃ a ∈ list, a.SameScalar b
  | .FieldIsDynString _, v, w => v = w
  | .FieldIsDynArray elem _, v, w =>
      ∃ list list', v.toList = some list ∧ w.toList = some list' ∧ List.Forall₂ elem.Same list list'
  | .FieldIsEnum _ _, v, w => v = w
  | .array elem _, v, w =>
      ∃ list list', v.toList = some list ∧ w.toList = some list' ∧ List.Forall₂ elem.Same list list'
  | .plain type, v, w => type.Same v w

/-- Two maps are the same at all members. -/
def Members.Same : Members → List (QString × Variant) → List (QString × Variant) → Prop
  | .nil, _, _ => True
  | .cons name member rest, entries, entries' =>
      (∃ a b, entries.lookup (fromLatin1 name) = some a ∧
        entries'.lookup (fromLatin1 name) = some b ∧ member.Same a b) ∧ rest.Same entries entries'

/-- Two maps have one member, and are the same there. -/
def Members.SameOne : Members → List (QString × Variant) → List (QString × Variant) → Prop
  | .nil, _, _ => False
  | .cons name member rest, entries, entries' =>
      (∃ a b, entries = [(fromLatin1 name, a)] ∧ entries' = [(fromLatin1 name, b)] ∧
        member.Same a b) ∨ rest.SameOne entries entries'

end

/-! ## Messages that are read as they are -/

mutual

/-- Nothing of a message is changed when it is read into a type. -/
def Described.Intact : Described → Variant → Prop
  | .scalar t, v => v.Fits platform t
  | .record _ members, v => ∃ entries, v = .map entries ∧ members.Intact entries
  | .union _ _ members, v => ∃ entries, v = .map entries ∧ members.IntactOne entries

/-- A list of bits has booleans only, and none is set behind the size of a pointer. A unique ID is
the text that the null one is given as. The bits of a mask are in it. A text is valid and has no
byte-order mark. An enumerator is given by its name, the first one of its value. -/
def Member.Intact : Member → Variant → Prop
  | .FieldIsBitArray _, v =>
      ∃ bits : List Bool, v = .list (bits.map (.value .bool)) ∧
        ∀ i, bits[i]? = some true → i < 8 * platform.pointer
  | .FieldIsUniqueID, v => v = .string (List.replicate 16 48)
  | .FieldIsBitmask bytes, v =>
      ∃ list, v = .list list ∧ ∀ a ∈ list, ∃ k : ℕ, k < 8 * bytes ∧ a.number = some (.finite k)
  | .FieldIsDynString _, v => ∃ s, v = .string s ∧ validUtf16 s = true ∧ startsWithBom s = false
  | .FieldIsDynArray elem _, v => ∃ list, v.toList = some list ∧ ∀ a ∈ list, elem.Intact a
  | .FieldIsEnum _ e, v =>
      ∃ name x, v = .string (fromLatin1 name) ∧ e.name_to_enum name = some x ∧
        e.enum_to_name x = some name
  | .array elem _, v => ∃ list, v.toList = some list ∧ ∀ a ∈ list, elem.Intact a
  | .plain type, v => type.Intact v

/-- Nothing of a map is changed that is a member. -/
def Members.Intact : Members → List (QString × Variant) → Prop
  | .nil, _ => True
  | .cons name member rest, entries =>
      (∃ a, entries.lookup (fromLatin1 name) = some a ∧ member.Intact a) ∧ rest.Intact entries

/-- The only entry of a map is a member that is not changed. -/
def Members.IntactOne : Members → List (QString × Variant) → Prop
  | .nil, _ => False
  | .cons name member rest, entries =>
      (∃ a, entries = [(fromLatin1 name, a)] ∧ member.Intact a) ∨ rest.IntactOne entries

end

/-! ## Members -/

variable {platform}

/-- The bits that come out of a list of bits are those that do not lie behind a pointer. -/
theorem bitArrayToVariant_ofList {capacity : ℕ} {bits : List Bool}
    (h : bits.length ≤ bitpackedSize capacity) :
    bitArrayToVariant platform (bitArrayOfList platform bits h : BitArray capacity) =
      bits.mapIdx (fun i b => .value .bool (b && decide (i < 8 * platform.pointer))) := by
  apply List.ext_getElem?
  intro i
  have hcount : (bitArrayOfList platform bits h : BitArray capacity).count = bits.length := rfl
  rw [bitArrayToVariant, hcount, List.getElem?_map, List.getElem?_mapIdx]
  cases hi : bits[i]? with
  | none =>
    have hbehind := List.getElem?_eq_none_iff.mp hi
    rw [List.getElem?_eq_none (by rwa [List.length_range])]
    rfl
  | some b =>
    have hlt := (List.getElem?_eq_some_iff.mp hi).1
    rw [List.getElem?_range hlt, Option.map_some, Option.map_some]
    congr 2
    by_cases hpointer : i < 8 * platform.pointer
    · rw [platform.getBit_inside _ hpointer (by omega), bitArrayOfList,
        getLsbD_setBits platform (Nat.le_refl _) (by omega), if_pos (Nat.zero_le i), Nat.sub_zero,
        List.getD_eq_getElem?_getD, hi]
      simp [hpointer]
    · rw [platform.getBit_behind _ (Nat.le_of_not_lt hpointer)]
      simp [hpointer]

/-- A list of bits is kept if its items are booleans, and none is set behind a pointer. -/
theorem bitArray_same_iff {capacity : ℕ} {owner : String} {v : Variant} {frame : TraceFrame}
    {x : BitArray capacity}
    (hfrom : bitArrayFromVariant platform capacity owner v frame = .ok x) :
    v = .list (bitArrayToVariant platform x) ↔
      (Member.FieldIsBitArray capacity).Intact platform v := by
  cases v with
  | list list =>
    simp only [bitArrayFromVariant] at hfrom
    split at hfrom
    · rename_i hlength
      obtain rfl := Except.ok.inj hfrom
      rw [bitArrayToVariant_ofList, Variant.list.injEq]
      constructor
      · intro hsame
        have hitem {i : ℕ} {item : Variant} (hi : list[i]? = some item) :
            item = .value .bool
              (item.valueAs platform .bool && decide (i < 8 * platform.pointer)) := by
          have hout := hi
          rw [hsame, List.getElem?_mapIdx, List.getElem?_map, hi] at hout
          exact (Option.some.inj hout).symm
        refine ⟨list.map (fun item => item.valueAs platform .bool), ?_, fun i hi => ?_⟩
        · rw [List.map_map]
          congr 1
          conv_lhs => rw [← List.map_id list]
          apply List.map_congr_left
          intro item hmem
          obtain ⟨i, hi⟩ := List.mem_iff_getElem?.mp hmem
          rw [id_eq, Function.comp_apply, hitem hi, valueAs_value]
        · rw [List.getElem?_map] at hi
          obtain ⟨item, hget, htrue⟩ := Option.map_eq_some_iff.mp hi
          have hread := congrArg (fun w => Variant.valueAs platform .bool w) (hitem hget)
          simp only [valueAs_value, htrue, Bool.true_and] at hread
          exact of_decide_eq_true hread.symm
      · rintro ⟨bits, hlist, hset⟩
        obtain rfl := Variant.list.inj hlist
        have hread : (bits.map (Variant.value .bool)).map
            (fun item => item.valueAs platform .bool) = bits := by
          rw [List.map_map]
          conv_rhs => rw [← List.map_id bits]
          exact List.map_congr_left (fun b _ => valueAs_value platform .bool b)
        rw [hread]
        apply List.ext_getElem?
        intro i
        rw [List.getElem?_mapIdx, List.getElem?_map]
        cases hi : bits[i]? with
        | none => rfl
        | some b =>
          cases b with
          | false => rfl
          | true => simp [hset i hi]
    · cases hfrom
  | _ => cases hfrom

/-- A unique ID is kept if it is the text of the null one, as it is given. -/
theorem uniqueId_same_iff {owner : String} {v : Variant} {frame : TraceFrame}
    {x : Vector UInt8 uniqueIdSize} (hfrom : uniqueIdFromVariant platform owner v frame = .ok x) :
    v = .string (fromLatin1 (uniqueIdText x)) ↔ Member.FieldIsUniqueID.Intact platform v := by
  have hnull : fromLatin1 (uniqueIdText (Vector.replicate uniqueIdSize 0)) =
      List.replicate 16 48 := by decide
  simp only [uniqueIdFromVariant] at hfrom
  split at hfrom
  · obtain rfl := Except.ok.inj hfrom
    constructor
    · intro hsame
      have hplain := platform.toRfc4122_plain (not_mem_uniqueIdText (platform.toRfc4122 v))
      rw [← hsame] at hplain
      rw [Member.Intact, hsame, hplain, hnull]
    · rintro rfl
      rw [platform.toRfc4122_plain (by decide), hnull]
  · cases hfrom

/-- The loop of a mask goes on after an item with the number of a bit. -/
theorem bitmaskOfList_cons {bytes : ℕ} {where_ : String} {v : Variant} {rest : List Variant}
    {i : ℕ} {field res : BitVec (8 * bytes)}
    (h : bitmaskOfList platform where_ i (v :: rest) field = .ok res) :
    ∃ u, v.asUInt platform = some u ∧ bitmaskOfList platform where_ (i + 1) rest
      (platform.nunavutSetBit field bytes u.toNat true) = .ok res := by
  simp only [bitmaskOfList] at h
  split at h
  · cases h
  · rename_i u hu
    split at h
    · cases h
    · exact ⟨u, hu, h⟩

/-- The loop of a mask sets the bits that the items give, as long as they are in it. -/
theorem getLsbD_bitmaskOfList {bytes : ℕ} {where_ : String} {list : List Variant} {i : ℕ}
    {field res : BitVec (8 * bytes)} (h : bitmaskOfList platform where_ i list field = .ok res)
    (hin : ∀ v ∈ list, ∀ u, v.asUInt platform = some u → u.toNat < 8 * bytes) (j : ℕ) :
    res.getLsbD j = true ↔
      field.getLsbD j = true ∨ ∃ v ∈ list, ∃ u, v.asUInt platform = some u ∧ u.toNat = j := by
  induction list generalizing i field with
  | nil =>
    obtain rfl := Except.ok.inj h
    simp
  | cons v rest ih =>
    obtain ⟨u, hu, hrest⟩ := bitmaskOfList_cons h
    rw [ih hrest (fun w hw => hin w (List.mem_cons_of_mem _ hw)),
      platform.getLsbD_setBit field true (hin v List.mem_cons_self u hu) (Nat.le_refl _)]
    by_cases hj : j = u.toNat
    · simp [hj, hu]
    · simp [hj, hu, Ne.symm hj]

/-- A number of the list that a mask is given as. -/
theorem mem_bitmaskToVariant {bytes : ℕ} {field : BitVec (8 * bytes)} {w : Variant} :
    w ∈ bitmaskToVariant platform field ↔
      ∃ k, k < 8 * bytes ∧ field.getLsbD k = true ∧ w = .value .uint32_t (UInt32.ofNat k) := by
  rw [bitmaskToVariant, List.mem_map]
  constructor
  · rintro ⟨k, hk, rfl⟩
    obtain ⟨hrange, hset⟩ := List.mem_filter.mp hk
    have hlt := List.mem_range.mp hrange
    rw [platform.getBit_inside field hlt hlt] at hset
    exact ⟨k, hlt, hset, rfl⟩
  · rintro ⟨k, hlt, hset, rfl⟩
    refine ⟨k, List.mem_filter.mpr ⟨List.mem_range.mpr hlt, ?_⟩, rfl⟩
    rw [platform.getBit_inside field hlt hlt]
    exact hset

/-- A number below `2 ^ 32` is kept in 32 bits. -/
theorem toNat_ofNat32 {k : ℕ} (hk : k < 2 ^ 32) : (UInt32.ofNat k).toNat = k := by
  rw [UInt32.toNat_ofNat', Nat.mod_eq_of_lt hk]

/-- The number of a bit. -/
theorem number_bit {k : ℕ} (hk : k < 2 ^ 32) :
    (Variant.value .uint32_t (UInt32.ofNat k)).number = some (.finite k) := by
  rw [Variant.number, ScalarType.number, toNat_ofNat32 hk]

/-- An item with the number of a bit is read as it. -/
theorem asUInt_bit (hplatform : platform.KeepsNumbers) {v : Variant} {k : ℕ} (hk : k < 2 ^ 32)
    (hv : v.number = some (.finite k)) : v.asUInt platform = some (UInt32.ofNat k) :=
  asUInt_of_number hplatform (by rw [toNat_ofNat32 hk, hv])

/-- A bit mask is kept if its items are the numbers of bits that are in it. -/
theorem bitmask_same_iff (hplatform : platform.KeepsNumbers) {bytes : ℕ}
    (hbytes : 8 * bytes ≤ 2 ^ 32) {owner : String} {v : Variant} {frame : TraceFrame}
    {x : BitVec (8 * bytes)} (hfrom : bitmaskFromVariant platform bytes owner v frame = .ok x) :
    (Member.FieldIsBitmask bytes).Same v (.list (bitmaskToVariant platform x)) ↔
      (Member.FieldIsBitmask bytes).Intact platform v := by
  cases v with
  | list list =>
    simp only [bitmaskFromVariant] at hfrom
    constructor
    · rintro ⟨_, _, ⟨⟩, ⟨⟩, hkept, -⟩
      refine ⟨list, rfl, fun a ha => ?_⟩
      obtain ⟨b, hb, hsame⟩ := hkept a ha
      obtain ⟨k, hk, -, rfl⟩ := mem_bitmaskToVariant.mp hb
      have hnumber := number_bit (show k < 2 ^ 32 by omega)
      refine ⟨k, hk, ?_⟩
      rcases hsame with rfl | ⟨n, ha, hn⟩
      · exact hnumber
      · rw [ha, ← hn, hnumber]
    · rintro ⟨_, ⟨⟩, hbits⟩
      have hin : ∀ a ∈ list, ∀ u, a.asUInt platform = some u → u.toNat < 8 * bytes := by
        intro a ha u hu
        obtain ⟨k, hk, hnumber⟩ := hbits a ha
        rw [asUInt_bit hplatform (by omega) hnumber] at hu
        rw [← Option.some.inj hu, toNat_ofNat32 (by omega)]
        exact hk
      have hset := getLsbD_bitmaskOfList hfrom hin
      refine ⟨list, _, rfl, rfl, fun a ha => ?_, fun b hb => ?_⟩
      · obtain ⟨k, hk, hnumber⟩ := hbits a ha
        have hbit := (hset k).mpr
          (.inr ⟨a, ha, _, asUInt_bit hplatform (by omega) hnumber, toNat_ofNat32 (by omega)⟩)
        refine ⟨_, mem_bitmaskToVariant.mpr ⟨k, hk, hbit, rfl⟩, .inr ⟨_, hnumber, ?_⟩⟩
        exact number_bit (by omega)
      · obtain ⟨k, hk, hbit, rfl⟩ := mem_bitmaskToVariant.mp hb
        rcases (hset k).mp hbit with hzero | ⟨a, ha, u, hu, rfl⟩
        · rw [BitVec.getLsbD_zero] at hzero
          cases hzero
        · obtain ⟨k, hlt, hnumber⟩ := hbits a ha
          rw [asUInt_bit hplatform (by omega) hnumber] at hu
          obtain rfl := Option.some.inj hu
          refine ⟨a, ha, .inr ⟨_, hnumber, ?_⟩⟩
          rw [toNat_ofNat32 (by omega)]
          exact number_bit (by omega)
  | _ => cases hfrom

/-- What is read from UTF-8 bytes is a valid text. -/
theorem validUtf16_fromUtf8_points {points : List ℕ} (hpoints : ∀ c ∈ points, IsScalar c) :
    validUtf16 (fromUtf8 (points.flatMap encodePoint)) = true := by
  rw [fromUtf8_points hpoints]
  cases points with
  | nil => rfl
  | cons c points =>
    have htail : ∀ c ∈ points, IsScalar c := fun c hc => hpoints c (List.mem_cons_of_mem _ hc)
    by_cases hbom : startsWithBom (ofPoints (c :: points)) = true
    · rw [if_pos hbom]
      obtain rfl := (startsWithBom_ofPoints_cons (hpoints c (by simp)) points).mp hbom
      exact validUtf16_ofPoints htail
    · rw [if_neg hbom]
      exact validUtf16_ofPoints hpoints

/-- A text is read back from its bytes if it is valid and has no byte-order mark. -/
theorem fromUtf8_toStdString_eq_iff {s : QString} :
    fromUtf8 (toStdString s) = s ↔ validUtf16 s = true ∧ startsWithBom s = false := by
  constructor
  · intro hback
    obtain ⟨points, hpoints, hbytes⟩ := Lua.isUtf8_toStdString s
    have hvalid : validUtf16 s = true := by
      rw [← hback, hbytes]
      exact validUtf16_fromUtf8_points hpoints
    refine ⟨hvalid, ?_⟩
    rw [fromUtf8_toStdString hvalid] at hback
    cases hbom : startsWithBom s with
    | false => rfl
    | true =>
      rw [hbom, if_pos rfl] at hback
      cases s with
      | nil => exact absurd hbom (by decide)
      | cons u rest => exact absurd hback.symm (List.cons_ne_self u rest)
  · rintro ⟨hvalid, hbom⟩
    exact fromUtf8_toStdString_of_valid hvalid hbom

/-- A text is kept if it is valid and has no byte-order mark. -/
theorem dynString_same_iff {capacity : ℕ} (hsmall : capacity < 2 ^ 31) {owner : String}
    {v : Variant} {frame : TraceFrame} {x : {elements : Bytes // elements.length ≤ capacity}}
    (hfrom : dynStringFromVariant platform capacity owner v frame = .ok x) :
    v = .string (fromUtf8Sized x.val x.val.length) ↔
      (Member.FieldIsDynString capacity).Intact platform v := by
  cases v with
  | string s =>
    simp only [dynStringFromVariant] at hfrom
    split at hfrom
    · rename_i hlength
      obtain rfl := Except.ok.inj hfrom
      have hread := fromUtf8Sized_of_lt (show (toStdString s).length < 2 ^ 31 by omega) []
      rw [List.append_nil] at hread
      rw [hread, Variant.string.injEq, eq_comm, fromUtf8_toStdString_eq_iff]
      constructor
      · intro hs
        exact ⟨s, rfl, hs⟩
      · rintro ⟨_, ⟨⟩, hs⟩
        exact hs
    · cases hfrom
  | _ => cases hfrom

/-- An enumerator is kept if it is given by the first name of its value. -/
theorem enum_same_iff {e : EnumDescription} (hnames : (e.map Prod.fst).Nodup) {owner : String}
    {v : Variant} {frame : TraceFrame} {x : UInt8}
    (hfrom : enumFromVariant platform e owner v frame = .ok x) (description : String) :
    ∃ name, e.enum_to_name x = some name ∧
      (v = .string (fromLatin1 name) ↔ (Member.FieldIsEnum description e).Intact platform v) := by
  have hread : e.name_to_enum (toLatin1 (v.asString platform)) = some x := by
    simp only [enumFromVariant] at hfrom
    split at hfrom
    · cases hfrom
    · split at hfrom
      · cases hfrom
      · rename_i res hres
        rw [hres, Except.ok.inj hfrom]
  obtain ⟨name, -, hto, hback⟩ := e.name_to_enum_of_enum_to_name hnames
    (List.mem_map_of_mem (Assoc.mem_of_lookup hread))
  refine ⟨name, hto, ?_⟩
  constructor
  · intro hv
    exact ⟨name, x, hv, hback, hto⟩
  · rintro ⟨given, value, rfl, hvalue, hgiven⟩
    rw [Variant.asString, toLatin1_fromLatin1, hvalue] at hread
    obtain rfl := Option.some.inj hread
    rw [Option.some.inj (hto.symm.trans hgiven)]

/-- The items of a list are kept if each of them is. -/
theorem items_same_iff {α : Type} {to_variant : α → TraceFrame → Except String Variant}
    {from_variant : Variant → TraceFrame → Except String α} {Same : Variant → Variant → Prop}
    {Intact : Variant → Prop}
    (hitem : ∀ v x frame, from_variant v frame = .ok x → ∀ frame', ∃ w,
      to_variant x frame' = .ok w ∧ (Same v w ↔ Intact v)) {frame : TraceFrame} {i : ℕ}
    {list : List Variant} {items : {items : List α // items.length = list.length}}
    (hfrom : itemsFromVariant from_variant frame i list = .ok items) (frame' : TraceFrame) (j : ℕ) :
    ∃ list', itemsToVariant to_variant frame' j items.val = .ok list' ∧
      (List.Forall₂ Same list list' ↔ ∀ v ∈ list, Intact v) := by
  induction list generalizing i j with
  | nil =>
    obtain rfl := Except.ok.inj hfrom
    exact ⟨[], rfl, iff_of_true .nil (by simp)⟩
  | cons v rest ih =>
    obtain ⟨x, hx, hfrom⟩ := bind_eq_ok.mp hfrom
    obtain ⟨xs, hxs, hfrom⟩ := bind_eq_ok.mp hfrom
    obtain rfl := Except.ok.inj hfrom
    obtain ⟨w, hw, hsame⟩ := hitem v x _ hx (.inr j :: frame')
    obtain ⟨ws, hws, hrest⟩ := ih hxs (j + 1)
    refine ⟨w :: ws, ?_, ?_⟩
    · rw [itemsToVariant, hw, hws]
      rfl
    · rw [List.forall₂_cons, hsame, hrest, List.forall_mem_cons]

section Arrays

variable {α : Type} {to_variant : α → TraceFrame → Except String Variant}
  {from_variant : Variant → TraceFrame → Except String α} {Same : Variant → Variant → Prop}
  {Intact : Variant → Prop}

/-- The list that an array is given as is the same as the one that it was read from if its items
are. -/
theorem list_same_iff {v : Variant} {list list' : List Variant} (hv : v.toList = some list)
    (h : List.Forall₂ Same list list' ↔ ∀ a ∈ list, Intact a) :
    (∃ given taken, v.toList = some given ∧ (Variant.list list').toList = some taken ∧
        List.Forall₂ Same given taken) ↔
      ∃ given, v.toList = some given ∧ ∀ a ∈ given, Intact a := by
  constructor
  · rintro ⟨given, _, hgiven, ⟨⟩, hsame⟩
    obtain rfl := Option.some.inj (hgiven.symm.trans hv)
    exact ⟨given, hv, h.mp hsame⟩
  · rintro ⟨given, hgiven, hintact⟩
    obtain rfl := Option.some.inj (hgiven.symm.trans hv)
    exact ⟨given, list', hv, rfl, h.mpr hintact⟩

variable (hitem : ∀ v x frame, from_variant v frame = .ok x → ∀ frame', ∃ w,
  to_variant x frame' = .ok w ∧ (Same v w ↔ Intact v))

include hitem

/-- A list whose items are all read. -/
theorem readItems_same_iff {v : Variant} {list : List Variant} (hv : v.toList = some list)
    {frame : TraceFrame} {items : {items : List α // items.length = list.length}}
    (hfrom : itemsFromVariant from_variant frame 0 list = .ok items) (frame' : TraceFrame) :
    ∃ list', itemsToVariant to_variant frame' 0 items.val = .ok list' ∧
      ((∃ given taken, v.toList = some given ∧ (Variant.list list').toList = some taken ∧
        List.Forall₂ Same given taken) ↔
          ∃ given, v.toList = some given ∧ ∀ a ∈ given, Intact a) := by
  obtain ⟨list', hto, hsame⟩ := items_same_iff hitem hfrom frame' 0
  exact ⟨list', hto, list_same_iff hv hsame⟩

/-- An array with a length. -/
theorem dynArray_same_iff {capacity : ℕ} {owner : String} {v : Variant} {frame : TraceFrame}
    {x : {elements : List α // elements.length ≤ capacity}}
    (hfrom : dynArrayFromVariant platform from_variant capacity owner v frame = .ok x)
    (frame' : TraceFrame) :
    ∃ list', itemsToVariant to_variant frame' 0 x.val = .ok list' ∧
      ((∃ given taken, v.toList = some given ∧ (Variant.list list').toList = some taken ∧
        List.Forall₂ Same given taken) ↔
          ∃ given, v.toList = some given ∧ ∀ a ∈ given, Intact a) := by
  simp only [dynArrayFromVariant] at hfrom
  split at hfrom
  · rename_i list hlist
    split at hfrom
    · obtain ⟨items, hitems, hfrom⟩ := bind_eq_ok.mp hfrom
      obtain rfl := Except.ok.inj hfrom
      exact readItems_same_iff hitem hlist hitems frame'
    · cases hfrom
  · cases hfrom

/-- A fixed array. -/
theorem array_same_iff {size : ℕ} {owner : String} {v : Variant} {frame : TraceFrame}
    {x : {elements : List α // elements.length = size}}
    (hfrom : arrayFromVariant platform from_variant size owner v frame = .ok x)
    (frame' : TraceFrame) :
    ∃ list', itemsToVariant to_variant frame' 0 x.val = .ok list' ∧
      ((∃ given taken, v.toList = some given ∧ (Variant.list list').toList = some taken ∧
        List.Forall₂ Same given taken) ↔
          ∃ given, v.toList = some given ∧ ∀ a ∈ given, Intact a) := by
  simp only [arrayFromVariant] at hfrom
  split at hfrom
  · rename_i list hlist
    split at hfrom
    · obtain ⟨items, hitems, hfrom⟩ := bind_eq_ok.mp hfrom
      obtain rfl := Except.ok.inj hfrom
      exact readItems_same_iff hitem hlist hitems frame'
    · cases hfrom
  · cases hfrom

end Arrays

/-! ## The induction over descriptions -/

/-- The entry that two maps have in common has the name of a member. -/
theorem Members.SameOne.key : {ms : Members} → {key : QString} → {a : Variant} →
    {entries' : List (QString × Variant)} → ms.SameOne [(key, a)] entries' →
    key ∈ ms.names.map fromLatin1
  | .cons name member rest, key, a, entries', h => by
      rw [Members.names, List.map_cons, List.mem_cons]
      rcases h with ⟨_, _, hentries, -⟩ | hrest
      · exact .inl (Prod.mk.inj (List.singleton_inj.mp hentries)).1
      · exact .inr hrest.key

/-- The entry of a map that is not changed has the name of a member. -/
theorem Members.IntactOne.key : {ms : Members} → {key : QString} → {a : Variant} →
    ms.IntactOne platform [(key, a)] → key ∈ ms.names.map fromLatin1
  | .cons name member rest, key, a, h => by
      rw [Members.names, List.map_cons, List.mem_cons]
      rcases h with ⟨_, hentries, -⟩ | hrest
      · exact .inl (Prod.mk.inj (List.singleton_inj.mp hentries)).1
      · exact .inr hrest.key

/-- A tag is that of a map with one entry. -/
theorem eq_singleton_of_tagOfMap {name : String} {UnionEnum : EnumDescription} {names : List Bytes}
    {map : List (QString × Variant)} {frame : TraceFrame} {tag : UInt8}
    (h : tagOfMap platform name UnionEnum names map frame = .ok tag) :
    ∃ key a, map = [(key, a)] := by
  simp only [tagOfMap] at h
  split at h
  · exact ⟨_, _, rfl⟩
  · cases h

/-- A map is read into a struct. -/
theorem eq_map_of_expectMap {name : String} {v : Variant} {frame : TraceFrame}
    {entries : List (QString × Variant)} (h : expectMap platform name v frame = .ok entries) :
    v = .map entries := by
  cases v with
  | map given =>
    obtain rfl := Except.ok.inj h
    rfl
  | _ => cases h

mutual

/-- A message that is read into a struct. -/
theorem Described.same_iff (hplatform : platform.KeepsNumbers) : (t : Described) → t.Proper →
    ∀ v x frame, t.from_variant platform v frame = .ok x → ∀ frame', ∃ w,
      t.to_variant platform x frame' = .ok w ∧ (t.Same v w ↔ t.Intact platform v)
  | .scalar t, _, v, x, frame, hfrom, frame' => by
      rw [Described.from_variant] at hfrom
      refine ⟨.value t x, by rw [Described.to_variant], ?_⟩
      obtain rfl := Except.ok.inj hfrom
      exact sameScalar_valueAs_iff hplatform t v
  | .record name members, ht, v, x, frame, hfrom, frame' => by
      rw [Described.from_variant] at hfrom
      obtain ⟨entries, hmap, hfields⟩ := bind_eq_ok.mp hfrom
      obtain rfl := eq_map_of_expectMap hmap
      obtain ⟨entries', hto, hkeys, hsame⟩ := members.same_iff hplatform ht.2 name entries x frame
        hfields frame' [] (fun _ _ => List.not_mem_nil) ht.1
      refine ⟨.map entries', by rw [Described.to_variant, hto]; rfl, ?_⟩
      have hiff := hsame entries' (lookup_of_names hkeys ht.1)
      constructor
      · rintro ⟨_, _, ⟨⟩, ⟨⟩, -, hmembers⟩
        exact ⟨entries, rfl, hiff.mp hmembers⟩
      · rintro ⟨_, ⟨⟩, hmembers⟩
        exact ⟨entries, entries', rfl, rfl, fun key => by rw [hkeys], hiff.mpr hmembers⟩
  | .union name UnionEnum members, ht, v, x, frame, hfrom, frame' => by
      rw [Described.from_variant] at hfrom
      obtain ⟨entries, hmap, hread⟩ := bind_eq_ok.mp hfrom
      obtain rfl := eq_map_of_expectMap hmap
      obtain ⟨tag, htag, htagged⟩ := bind_eq_ok.mp hread
      obtain ⟨key, a, rfl⟩ := eq_singleton_of_tagOfMap htag
      obtain ⟨y, hy, hx⟩ := bind_eq_ok.mp htagged
      obtain rfl := Except.ok.inj hx
      obtain ⟨b, hto, -, hsame⟩ := members.sameOne_iff hplatform ht.2.2 ht.1 tag.toNat name key a y
        frame hy frame'
      refine ⟨.map [(key, b)], by rw [Described.to_variant, hto]; rfl, ?_⟩
      constructor
      · rintro ⟨_, _, ⟨⟩, ⟨⟩, hone⟩
        exact ⟨_, rfl, hsame.mp hone⟩
      · rintro ⟨_, ⟨⟩, hone⟩
        exact ⟨_, _, rfl, rfl, hsame.mpr hone⟩

/-- A message that is read into a member. -/
theorem Member.same_iff (hplatform : platform.KeepsNumbers) : (m : Member) → m.Proper →
    ∀ owner v x frame, m.from_variant platform owner v frame = .ok x → ∀ frame', ∃ w,
      m.to_variant platform x frame' = .ok w ∧ (m.Same v w ↔ m.Intact platform v)
  | .FieldIsBitArray _, _, owner, v, x, frame, hfrom, frame' => by
      rw [Member.from_variant] at hfrom
      exact ⟨_, by rw [Member.to_variant], bitArray_same_iff hfrom⟩
  | .FieldIsUniqueID, _, owner, v, x, frame, hfrom, frame' => by
      rw [Member.from_variant] at hfrom
      exact ⟨_, by rw [Member.to_variant], uniqueId_same_iff hfrom⟩
  | .FieldIsBitmask _, hm, owner, v, x, frame, hfrom, frame' => by
      rw [Member.from_variant] at hfrom
      exact ⟨_, by rw [Member.to_variant], bitmask_same_iff hplatform hm hfrom⟩
  | .FieldIsDynString _, hm, owner, v, x, frame, hfrom, frame' => by
      rw [Member.from_variant] at hfrom
      exact ⟨_, by rw [Member.to_variant], dynString_same_iff hm.2 hfrom⟩
  | .FieldIsDynArray elem _, hm, owner, v, x, frame, hfrom, frame' => by
      rw [Member.from_variant] at hfrom
      obtain ⟨list', hto, hsame⟩ := dynArray_same_iff (elem.same_iff hplatform hm) hfrom frame'
      exact ⟨.list list', by rw [Member.to_variant, hto]; rfl, hsame⟩
  | .FieldIsEnum name _, hm, owner, v, x, frame, hfrom, frame' => by
      rw [Member.from_variant] at hfrom
      obtain ⟨enumerator, hto, hsame⟩ := enum_same_iff hm.1 hfrom name
      exact ⟨.string (fromLatin1 enumerator), by simp only [Member.to_variant, hto], hsame⟩
  | .array elem _, hm, owner, v, x, frame, hfrom, frame' => by
      rw [Member.from_variant] at hfrom
      obtain ⟨list', hto, hsame⟩ := array_same_iff (elem.same_iff hplatform hm) hfrom frame'
      exact ⟨.list list', by rw [Member.to_variant, hto]; rfl, hsame⟩
  | .plain type, hm, owner, v, x, frame, hfrom, frame' => by
      rw [Member.from_variant] at hfrom
      obtain ⟨w, hto, hsame⟩ := type.same_iff hplatform hm v x frame hfrom frame'
      exact ⟨w, by rw [Member.to_variant, hto], hsame⟩

/-- A map that is read into the members of a record. -/
theorem Members.same_iff (hplatform : platform.KeepsNumbers) : (ms : Members) → ms.Proper →
    ∀ owner entries x frame, ms.fields_from_variant platform owner entries frame = .ok x →
    ∀ frame' result, (∀ name ∈ ms.names, fromLatin1 name ∉ result.map Prod.fst) → ms.names.Nodup →
    ∃ added, ms.fields_to_variant platform x frame' result = .ok (result ++ added) ∧
      added.map Prod.fst = ms.names.map fromLatin1 ∧
      ∀ map, (∀ e ∈ added, map.lookup e.1 = some e.2) →
        (ms.Same entries map ↔ ms.Intact platform entries)
  | .nil, _, owner, entries, x, frame, _, frame', result, _, _ => by
      exact ⟨[], by rw [Members.fields_to_variant, List.append_nil], rfl,
        fun _ _ => iff_of_true trivial trivial⟩
  | .cons name member rest, hms, owner, entries, x, frame, hfrom, frame', result, hresult,
      hnames => by
      obtain ⟨hname, hrestNames⟩ := List.nodup_cons.mp hnames
      rw [Members.fields_from_variant] at hfrom
      split at hfrom
      · cases hfrom
      rename_i v hv
      obtain ⟨y, hy, hfrom⟩ := bind_eq_ok.mp hfrom
      obtain ⟨ys, hys, hfrom⟩ := bind_eq_ok.mp hfrom
      obtain rfl := Except.ok.inj hfrom
      obtain ⟨w, hto, hsame⟩ :=
        member.same_iff hplatform hms.1 owner v y _ hy (.inl name :: frame')
      have hfresh : fromLatin1 name ∉ result.map Prod.fst := hresult name (by simp [Members.names])
      obtain ⟨added, hrestTo, hkeys, hrest⟩ := rest.same_iff hplatform hms.2 owner entries ys frame
        hys frame' (result ++ [(fromLatin1 name, w)]) (fresh_concat hname hresult w) hrestNames
      refine ⟨(fromLatin1 name, w) :: added, ?_, ?_, fun map hmap => ?_⟩
      · rw [Members.fields_to_variant, hto]
        simp only [Bind.bind, Except.bind]
        rw [Assoc.put_of_not_mem hfresh, hrestTo, List.append_assoc]
        rfl
      · rw [List.map_cons, hkeys]
        rfl
      · obtain ⟨hw, hadded⟩ := List.forall_mem_cons.mp hmap
        rw [Members.Same, Members.Intact, hrest map hadded]
        apply and_congr_left
        intro _
        constructor
        · rintro ⟨a, b, ha, hb, hab⟩
          obtain rfl := Option.some.inj (hv.symm.trans ha)
          obtain rfl := Option.some.inj (hw.symm.trans hb)
          exact ⟨v, hv, hsame.mp hab⟩
        · rintro ⟨a, ha, hintact⟩
          obtain rfl := Option.some.inj (hv.symm.trans ha)
          exact ⟨v, w, hv, hw, hsame.mpr hintact⟩

/-- A map that is read into the member of a union that its tag selects. -/
theorem Members.sameOne_iff (hplatform : platform.KeepsNumbers) : (ms : Members) → ms.Proper →
    ms.names.Nodup → ∀ index owner key a x frame,
    ms.tagged_from_variant platform owner index [(key, a)] frame = .ok x → ∀ frame', ∃ b,
      (∀ invalid, ms.tagged_to_variant platform index x frame' invalid = .ok [(key, b)]) ∧
      key ∈ ms.names.map fromLatin1 ∧
      (ms.SameOne [(key, a)] [(key, b)] ↔ ms.IntactOne platform [(key, a)])
  | .nil, _, _, index, owner, key, a, x, frame, hfrom, frame' => by
      rw [Members.tagged_from_variant] at hfrom
      cases hfrom
  | .cons name member rest, hms, hnames, 0, owner, key, a, x, frame, hfrom, frame' => by
      rw [Members.tagged_from_variant] at hfrom
      split at hfrom
      · cases hfrom
      rename_i v hv
      obtain ⟨rfl, rfl⟩ := Prod.mk.inj (List.mem_singleton.mp (Assoc.mem_of_lookup hv))
      obtain ⟨b, hto, hsame⟩ :=
        member.same_iff hplatform hms.1 owner v x _ hfrom (.inl name :: frame')
      have hnot : fromLatin1 name ∉ rest.names.map fromLatin1 := by
        rw [List.mem_map_of_injective fromLatin1_injective]
        exact (List.nodup_cons.mp hnames).1
      refine ⟨b, ?_, List.mem_cons_self, ?_⟩
      · intro invalid
        rw [Members.tagged_to_variant, hto]
        rfl
      · constructor
        · rintro (⟨_, _, ⟨⟩, ⟨⟩, hab⟩ | hrest)
          · exact .inl ⟨v, rfl, hsame.mp hab⟩
          · exact absurd hrest.key hnot
        · rintro (⟨_, ⟨⟩, hintact⟩ | hrest)
          · exact .inl ⟨v, b, rfl, rfl, hsame.mpr hintact⟩
          · exact absurd hrest.key hnot
  | .cons name member rest, hms, hnames, index + 1, owner, key, a, x, frame, hfrom, frame' => by
      rw [Members.tagged_from_variant] at hfrom
      obtain ⟨hname, hrestNames⟩ := List.nodup_cons.mp hnames
      obtain ⟨b, hto, hkey, hrest⟩ := rest.sameOne_iff hplatform hms.2 hrestNames index owner key
        a x frame hfrom frame'
      have hne : key ≠ fromLatin1 name := by
        rintro rfl
        rw [List.mem_map_of_injective fromLatin1_injective] at hkey
        exact hname hkey
      refine ⟨b, ?_, List.mem_cons_of_mem _ hkey, ?_⟩
      · intro invalid
        rw [Members.tagged_to_variant, hto]
      · rw [Members.SameOne, Members.IntactOne, hrest]
        apply or_congr_left
        constructor
        · rintro ⟨_, _, hentries, -⟩
          exact absurd (Prod.mk.inj (List.singleton_inj.mp hentries)).1 hne
        · rintro ⟨_, hentries, -⟩
          exact absurd (Prod.mk.inj (List.singleton_inj.mp hentries)).1 hne

end

/-- A message that is accepted for a described type is what its struct is turned into again
exactly when every part of it fits its member. -/
theorem from_variant_unaltered_iff (hplatform : platform.KeepsNumbers) {t : Described}
    (ht : t.Proper) {v : Variant} {x : t.Value} {frame : TraceFrame}
    (hfrom : t.from_variant platform v frame = .ok x) (frame' : TraceFrame) :
    (∃ w, t.to_variant platform x frame' = .ok w ∧ t.Same v w) ↔ t.Intact platform v := by
  obtain ⟨w, hto, hsame⟩ := t.same_iff hplatform ht v x frame hfrom frame'
  constructor
  · rintro ⟨w', hw', hkept⟩
    obtain rfl := Except.ok.inj (hto.symm.trans hw')
    exact hsame.mp hkept
  · intro hintact
    exact ⟨w, hto, hsame.mpr hintact⟩

/-- `toUInt` of a number is the number, where `unsigned int` has it. -/
def Number.toUInt : Number → Option UInt32
  | .finite q =>
      if q.den = 1 ∧ 0 ≤ q.num ∧ q.num < 2 ^ 32 then some (UInt32.ofNat q.num.toNat) else none
  | _ => none

/-- Such a number converts to itself. -/
theorem Number.toUInt_natCast (k : UInt32) : (Number.finite k.toNat).toUInt = some k := by
  have hlt := k.toNat_lt
  rw [Number.toUInt, Rat.den_natCast, Rat.num_natCast, if_pos ⟨rfl, by omega, by omega⟩,
    Int.toNat_natCast, UInt32.ofNat_toNat]

/-- A platform whose conversions give a number that the other type has wherever there is one. -/
noncomputable def keepingPlatform : Platform :=
  { platform64 with
    value := fun t v =>
      open Classical in
      if h : ∃ x n, v.number = some n ∧ t.number x = some n then h.choose
      else platform64.value t v
    toUInt := fun v => v.number.bind Number.toUInt }

/-- The sample platform keeps numbers. -/
theorem keepingPlatform_keepsNumbers : keepingPlatform.KeepsNumbers where
  value_number := by
    intro t u y n hy hx _
    have h : ∃ x n, (Variant.value u y).number = some n ∧ t.number x = some n :=
      hx.imp fun x hx => ⟨n, hy, hx⟩
    obtain ⟨n', hn', hchosen⟩ := h.choose_spec
    obtain rfl := Option.some.inj (hy.symm.trans hn')
    have hvalue : keepingPlatform.value t (.value u y) = h.choose := dif_pos h
    rw [hvalue]
    exact hchosen
  toUInt_number := by
    intro u y k hk
    have hvalue : keepingPlatform.toUInt (.value u y) = (u.number y).bind Number.toUInt := rfl
    rw [hvalue, hk, Option.bind_some, Number.toUInt_natCast]

/-- The name of the mask of a list of services. -/
def maskName : Bytes := [109, 97, 115, 107, 95, 98, 105, 116, 112, 97, 99, 107, 101, 100]

/-- A list of services: a mask with one bit for each of 512. -/
def serviceIDList : Described :=
  .record "uavcan_node_port_ServiceIDList_1_0" (.cons maskName (.FieldIsBitmask 64) .nil)

/-- The ID of a node. -/
def nodeID : Described :=
  .record "uavcan_node_ID_1_0" (.cons [118, 97, 108, 117, 101] (.plain (.scalar .uint16_t)) .nil)

/-- The services of a message, from the list of their numbers. -/
def services (numbers : List Variant) : Variant := .map [(fromLatin1 maskName, .list numbers)]

/-- A list of services is a proper description. -/
theorem serviceIDList_proper : serviceIDList.Proper :=
  ⟨List.nodup_singleton _, show 8 * 64 ≤ 2 ^ 32 by decide, trivial⟩

/-- Services in any order, and given twice, are kept. -/
theorem from_variant_unaltered_services :
    ∃ x w, serviceIDList.from_variant keepingPlatform
        (services [.value .uint32_t 511, .value .uint32_t 3, .value .uint32_t 3]) [] = .ok x ∧
      serviceIDList.to_variant keepingPlatform x [] = .ok w ∧
      serviceIDList.Same
        (services [.value .uint32_t 511, .value .uint32_t 3, .value .uint32_t 3]) w := by
  obtain ⟨x, hx⟩ : ∃ x, serviceIDList.from_variant keepingPlatform
      (services [.value .uint32_t 511, .value .uint32_t 3, .value .uint32_t 3]) [] = .ok x :=
    ⟨_, rfl⟩
  have hnumbers : ∀ a ∈ [Variant.value .uint32_t 511, .value .uint32_t 3, .value .uint32_t 3],
      ∃ k : ℕ, k < 8 * 64 ∧ a.number = some (.finite k) := by
    intro a ha
    simp only [List.mem_cons, List.not_mem_nil, or_false] at ha
    rcases ha with rfl | rfl | rfl
    · exact ⟨511, by decide, rfl⟩
    · exact ⟨3, by decide, rfl⟩
    · exact ⟨3, by decide, rfl⟩
  obtain ⟨w, hto, hsame⟩ :=
    (from_variant_unaltered_iff keepingPlatform_keepsNumbers serviceIDList_proper hx []).mpr
      ⟨_, rfl, ⟨_, rfl, _, rfl, hnumbers⟩, trivial⟩
  exact ⟨x, w, hx, hto, hsame⟩

/-- The number of a bit behind the last one of a mask is accepted and lost, and so is a number that
the type of a member does not have. -/
theorem from_variant_altered :
    (∃ x w, serviceIDList.from_variant keepingPlatform
        (services [.value .uint32_t 512]) [] = .ok x ∧
      serviceIDList.to_variant keepingPlatform x [] = .ok w ∧
      ¬ serviceIDList.Same (services [.value .uint32_t 512]) w) ∧
    ∃ x w, nodeID.from_variant keepingPlatform
        (.map [(fromLatin1 [118, 97, 108, 117, 101], .value .int64_t 70000)]) [] = .ok x ∧
      nodeID.to_variant keepingPlatform x [] = .ok w ∧
      ¬ nodeID.Same (.map [(fromLatin1 [118, 97, 108, 117, 101], .value .int64_t 70000)]) w := by
  constructor
  · obtain ⟨x, hx⟩ : ∃ x, serviceIDList.from_variant keepingPlatform
        (services [.value .uint32_t 512]) [] = .ok x := ⟨_, rfl⟩
    obtain ⟨w, hto, hsame⟩ :=
      serviceIDList.same_iff keepingPlatform_keepsNumbers serviceIDList_proper _ x [] hx []
    refine ⟨x, w, hx, hto, fun h => ?_⟩
    obtain ⟨_, ⟨⟩, ⟨_, ⟨⟩, _, ⟨⟩, hnumbers⟩, -⟩ := hsame.mp h
    obtain ⟨k, hk, hnumber⟩ := hnumbers _ List.mem_cons_self
    have hq : ((512 : ℕ) : ℚ) = k := Number.finite.inj (Option.some.inj hnumber)
    have hk' : 512 = k := by exact_mod_cast hq
    omega
  · obtain ⟨x, hx⟩ : ∃ x, nodeID.from_variant keepingPlatform
        (.map [(fromLatin1 [118, 97, 108, 117, 101], .value .int64_t 70000)]) [] = .ok x :=
      ⟨_, rfl⟩
    obtain ⟨w, hto, hsame⟩ := nodeID.same_iff keepingPlatform_keepsNumbers
      ⟨List.nodup_singleton _, trivial, trivial⟩ _ x [] hx []
    refine ⟨x, w, hx, hto, fun h => ?_⟩
    obtain ⟨_, ⟨⟩, ⟨_, ⟨⟩, hfits⟩, -⟩ := hsame.mp h
    rcases hfits with htype | ⟨n, hn, ⟨y, hy⟩, -⟩
    · cases htype
    · obtain rfl := Option.some.inj hn
      have hq : (y.toNat : ℚ) = ((70000 : ℤ) : ℚ) := Number.finite.inj (Option.some.inj hy)
      have hy' : (y.toNat : ℤ) = 70000 := by exact_mod_cast hq
      have hlt := y.toNat_lt
      omega

end Radapter.Cyphal
