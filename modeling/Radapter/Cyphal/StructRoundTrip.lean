import Radapter.Cyphal.Fields

/-!
# Structs there and back

A struct that is turned into a message and read again should be the struct it was. The induction
runs over the description of its type: a record comes back if its members do, a union if the
member that is selected does, an array if its items do.

What is lost is lost in three kinds of members: a unique ID is read as the null one, a bit array
is cut at the size of a pointer and refused when it has more bits than bytes to keep them in, and
a text must not fill its array nor start with a byte-order mark.
-/

namespace Radapter.Cyphal

open Library

variable (platform : Platform)

/-! ## Proper descriptions and valid values -/

/-- The tag of a union enumerates its members. -/
def EnumDescription.Enumerates (e : EnumDescription) (names : List Bytes) : Prop :=
  names.length ≤ 256 ∧ e = names.mapIdx (fun i name => (name, UInt8.ofNat i))

mutual

/-- A description says what the type is: names tell members and enumerators apart, tags enumerate
members, and arrays have a possible size. -/
def Described.Proper : Described → Prop
  | .scalar _ => True
  | .record _ members => members.names.Nodup ∧ members.Proper
  | .union _ UnionEnum members =>
      members.names.Nodup ∧ UnionEnum.Enumerates members.names ∧ members.Proper

/-- The description of a member. -/
def Member.Proper : Member → Prop
  | .FieldIsBitmask bytes => 8 * bytes ≤ 2 ^ 32
  | .FieldIsDynString capacity => 0 < capacity ∧ capacity < 2 ^ 31
  | .FieldIsDynArray elem _ => elem.Proper
  | .FieldIsEnum _ e => (e.map Prod.fst).Nodup ∧ [] ∉ e.map Prod.fst
  | .array elem _ => elem.Proper
  | .plain type => type.Proper
  | .FieldIsBitArray _ => True
  | .FieldIsUniqueID => True

/-- The descriptions of all members. -/
def Members.Proper : Members → Prop
  | .nil => True
  | .cons _ member rest => member.Proper ∧ rest.Proper

end

mutual

/-- Every tag selects a member, every enumerator is one, and every text is UTF-8. -/
def Described.Valid : (t : Described) → t.Value → Prop
  | .scalar _, _ => True
  | .record _ members, x => members.Valid x
  | .union _ _ members, ⟨tag, x⟩ => members.ValidAt tag.toNat x

/-- The value of a member. -/
def Member.Valid : (m : Member) → m.Value → Prop
  | .FieldIsDynString _, x => ∃ s, validUtf16 s = true ∧ toStdString s = x.val
  | .FieldIsDynArray elem _, x => ∀ y ∈ x.val, elem.Valid y
  | .FieldIsEnum _ e, x => x ∈ e.map Prod.snd
  | .array elem _, x => ∀ y ∈ x.val, elem.Valid y
  | .plain type, x => type.Valid x
  | .FieldIsBitArray _, _ => True
  | .FieldIsUniqueID, _ => True
  | .FieldIsBitmask _, _ => True

/-- The values of all members. -/
def Members.Valid : (ms : Members) → ms.Values → Prop
  | .nil, _ => True
  | .cons _ member rest, (x, xs) => member.Valid x ∧ rest.Valid xs

/-- The value of the member that the tag selects. -/
def Members.ValidAt : (ms : Members) → (index : ℕ) → ms.At index → Prop
  | .nil, _, _ => False
  | .cons _ member _, 0, x => member.Valid x
  | .cons _ _ rest, index + 1, x => rest.ValidAt index x

end

/-! ## What comes back -/

mutual

/-- No part of the struct is lost. -/
def Described.Kept : (t : Described) → t.Value → Prop
  | .scalar _, _ => True
  | .record _ members, x => members.Kept x
  | .union _ _ members, ⟨tag, x⟩ => members.KeptAt tag.toNat x

/-- A bit array has at most as many bits as bytes, and none is set behind the size of a pointer. A
unique ID is all zeros. A text leaves room for the NUL and has no byte-order mark. -/
def Member.Kept : (m : Member) → m.Value → Prop
  | .FieldIsBitArray capacity, x =>
      x.count ≤ bitpackedSize capacity ∧
        ∀ i, x.bitpacked.getLsbD i = true → i < 8 * platform.pointer
  | .FieldIsUniqueID, x => x = Vector.replicate uniqueIdSize 0
  | .FieldIsDynString capacity, x =>
      x.val.length < capacity ∧ x.val.take 3 ≠ [0xEF, 0xBB, 0xBF]
  | .FieldIsDynArray elem _, x => ∀ y ∈ x.val, elem.Kept y
  | .array elem _, x => ∀ y ∈ x.val, elem.Kept y
  | .plain type, x => type.Kept x
  | .FieldIsBitmask _, _ => True
  | .FieldIsEnum _ _, _ => True

/-- No member is lost. -/
def Members.Kept : (ms : Members) → ms.Values → Prop
  | .nil, _ => True
  | .cons _ member rest, (x, xs) => member.Kept x ∧ rest.Kept xs

/-- The member that the tag selects is not lost. -/
def Members.KeptAt : (ms : Members) → (index : ℕ) → ms.At index → Prop
  | .nil, _, _ => True
  | .cons _ member _, 0, x => member.Kept x
  | .cons _ _ rest, index + 1, x => rest.KeptAt index x

end

/-- `to_variant` succeeds, and `from_variant` gives the struct again. -/
def ComesBack (t : Described) (x : t.Value) (frame frame' : TraceFrame) : Prop :=
  ∃ v, t.to_variant platform x frame = .ok v ∧ t.from_variant platform v frame' = .ok x

/-! ## The induction over descriptions -/

/-- The names of the members behind one are still fresh once that one is in the result. -/
theorem fresh_concat {name : Bytes} {rest : List Bytes} {result : List (QString × Variant)}
    (hname : name ∉ rest)
    (hresult : ∀ other ∈ name :: rest, fromLatin1 other ∉ result.map Prod.fst) (v : Variant) :
    ∀ other ∈ rest, fromLatin1 other ∉ (result ++ [(fromLatin1 name, v)]).map Prod.fst := by
  intro other hother
  rw [List.map_append, List.mem_append, not_or]
  refine ⟨hresult other (List.mem_cons_of_mem _ hother), ?_⟩
  simp only [List.map_cons, List.map_nil, List.mem_singleton]
  intro hsame
  exact hname (fromLatin1_injective hsame ▸ hother)

/-- Entries with the names of members are found by them. -/
theorem lookup_of_names {names : List Bytes} {entries : List (QString × Variant)}
    (hkeys : entries.map Prod.fst = names.map fromLatin1) (hnames : names.Nodup) :
    ∀ e ∈ entries, entries.lookup e.1 = some e.2 := by
  intro e he
  apply Assoc.lookup_of_mem _ he
  rw [Assoc.Distinct, hkeys]
  exact hnames.map fromLatin1_injective

/-- The tag of a union is the index of the member with its name. -/
theorem EnumDescription.Enumerates.name_to_enum {e : EnumDescription} {names : List Bytes}
    (h : e.Enumerates names) (hnames : names.Nodup) {tag : UInt8} {name : Bytes}
    (hname : names[tag.toNat]? = some name) : e.name_to_enum name = some tag := by
  obtain ⟨-, rfl⟩ := h
  apply Assoc.lookup_of_mem
  · have hkeys : (names.mapIdx (fun i name => (name, UInt8.ofNat i))).map Prod.fst = names := by
      apply List.ext_getElem?
      intro i
      simp [Function.comp_def]
    rw [Assoc.Distinct, hkeys]
    exact hnames
  · rw [List.mem_iff_getElem?]
    refine ⟨tag.toNat, ?_⟩
    rw [List.getElem?_mapIdx, hname]
    simp

mutual

/-- What becomes of a struct. -/
theorem Described.conversion : (t : Described) → t.Proper → ∀ x, t.Valid x → ∀ frame,
    ∃ v, t.to_variant platform x frame = .ok v ∧
      ∀ frame', t.from_variant platform v frame' = .ok x ↔ t.Kept platform x
  | .scalar t, _, x, _, frame => by
      refine ⟨.value t x, by rw [Described.to_variant], fun frame' => iff_of_true ?_ trivial⟩
      rw [Described.from_variant]
      exact congrArg Except.ok (valueAs_value platform t x)
  | .record name members, ht, x, hx, frame => by
      obtain ⟨hnames, hproper⟩ := ht
      obtain ⟨entries, hto, hkeys, hfrom⟩ := members.conversion hproper x hx frame []
        (fun name _ => by simp) hnames
      refine ⟨.map entries, by rw [Described.to_variant, hto]; rfl, fun frame' => ?_⟩
      simp only [Described.from_variant, expectMap, Bind.bind, Except.bind, Described.Kept]
      exact hfrom entries (lookup_of_names hkeys hnames) name frame'
  | .union name UnionEnum members, ht, ⟨tag, x⟩, hx, frame => by
      obtain ⟨hnames, henum, hproper⟩ := ht
      obtain ⟨found, v, hfound, hto, hfrom⟩ :=
        members.conversionAt hproper tag.toNat x hx frame
      refine ⟨.map [(fromLatin1 found, v)], by rw [Described.to_variant, hto]; rfl, ?_⟩
      intro frame'
      have htag := henum.name_to_enum hnames hfound
      have hmember := hfrom [(fromLatin1 found, v)] (by simp) name frame'
      simp only [Described.from_variant, expectMap, tagOfMap, toLatin1_fromLatin1, htag,
        Bind.bind, Except.bind, Described.Kept]
      rw [← hmember]
      cases members.tagged_from_variant platform name tag.toNat _ frame' with
      | error text => exact iff_of_false (by simp) (by simp)
      | ok y =>
        constructor
        · intro hsame
          have hmember := (Sigma.mk.inj (Except.ok.inj hsame)).2
          rw [eq_of_heq hmember]
        · intro hsame
          rw [Except.ok.inj hsame]

/-- What becomes of a member. -/
theorem Member.conversion : (m : Member) → m.Proper → ∀ x, m.Valid x → ∀ frame,
    ∃ v, m.to_variant platform x frame = .ok v ∧
      ∀ owner frame', m.from_variant platform owner v frame' = .ok x ↔ m.Kept platform x
  | .FieldIsBitArray _, _, x, _, _ => by
      refine ⟨_, by rw [Member.to_variant], fun owner frame' => ?_⟩
      rw [Member.from_variant]
      exact bitArray_comes_back_iff platform x owner frame'
  | .FieldIsUniqueID, _, x, _, _ => by
      refine ⟨_, by rw [Member.to_variant], fun owner frame' => ?_⟩
      rw [Member.from_variant]
      exact uniqueId_comes_back_iff platform x owner frame'
  | .FieldIsBitmask _, hm, x, _, _ => by
      refine ⟨_, by rw [Member.to_variant], fun owner frame' => ?_⟩
      rw [Member.from_variant]
      exact iff_of_true (bitmask_comes_back platform hm x owner frame') trivial
  | .FieldIsDynString _, hm, x, hx, _ => by
      refine ⟨_, by rw [Member.to_variant], fun owner frame' => ?_⟩
      rw [Member.from_variant]
      exact dynString_comes_back_iff platform hm.1 hm.2 x hx owner frame'
  | .FieldIsDynArray elem _, hm, x, hx, frame => by
      obtain ⟨vs, hto, hfrom⟩ := dynArray_comes_back platform x
        (fun y hy frame => elem.conversion hm y (hx y hy) frame) frame
      refine ⟨.list vs, by rw [Member.to_variant, hto]; rfl, fun owner frame' => ?_⟩
      rw [Member.from_variant]
      exact hfrom owner frame'
  | .FieldIsEnum _ e, hm, x, hx, _ => by
      obtain ⟨name, hto, hfrom⟩ := enum_comes_back platform hm.1 hm.2 hx
      refine ⟨.string (fromLatin1 name), by simp only [Member.to_variant, hto], ?_⟩
      intro owner frame'
      rw [Member.from_variant]
      exact iff_of_true (hfrom owner frame') trivial
  | .array elem _, hm, x, hx, frame => by
      obtain ⟨vs, hto, hfrom⟩ := array_comes_back platform x
        (fun y hy frame => elem.conversion hm y (hx y hy) frame) frame
      refine ⟨.list vs, by rw [Member.to_variant, hto]; rfl, fun owner frame' => ?_⟩
      rw [Member.from_variant]
      exact hfrom owner frame'
  | .plain type, hm, x, hx, frame => by
      obtain ⟨v, hto, hfrom⟩ := type.conversion hm x hx frame
      exact ⟨v, hto, fun _ frame' => hfrom frame'⟩

/-- What becomes of the members of a record. -/
theorem Members.conversion : (ms : Members) → ms.Proper → ∀ x, ms.Valid x → ∀ frame result,
    (∀ name ∈ ms.names, fromLatin1 name ∉ result.map Prod.fst) → ms.names.Nodup →
    ∃ entries, ms.fields_to_variant platform x frame result = .ok (result ++ entries) ∧
      entries.map Prod.fst = ms.names.map fromLatin1 ∧
      ∀ map, (∀ e ∈ entries, map.lookup e.1 = some e.2) → ∀ owner frame',
        ms.fields_from_variant platform owner map frame' = .ok x ↔ ms.Kept platform x
  | .nil, _, x, _, frame, result, _, _ => by
      exact ⟨[], by rw [Members.fields_to_variant, List.append_nil], rfl,
        fun _ _ _ _ => iff_of_true rfl trivial⟩
  | .cons name member rest, hms, (x, xs), hx, frame, result, hresult, hnames => by
      obtain ⟨hname, hrestNames⟩ := List.nodup_cons.mp hnames
      obtain ⟨v, hto, hfrom⟩ := member.conversion hms.1 x hx.1 (.inl name :: frame)
      have hfresh : fromLatin1 name ∉ result.map Prod.fst := hresult name (by simp [Members.names])
      obtain ⟨entries, hrestTo, hkeys, hrestFrom⟩ := rest.conversion hms.2 xs hx.2 frame
        (result ++ [(fromLatin1 name, v)]) (fresh_concat hname hresult v) hrestNames
      refine ⟨(fromLatin1 name, v) :: entries, ?_, ?_, ?_⟩
      · rw [Members.fields_to_variant, hto]
        simp only [Bind.bind, Except.bind]
        rw [Assoc.put_of_not_mem hfresh, hrestTo, List.append_assoc]
        rfl
      · rw [List.map_cons, hkeys]
        rfl
      · intro map hmap owner frame'
        rw [List.forall_mem_cons] at hmap
        rw [Members.fields_from_variant, hmap.1, Members.Kept,
          ← hfrom owner (.inl name :: frame'), ← hrestFrom map hmap.2 owner frame']
        simp only
        cases member.from_variant platform owner v (.inl name :: frame') with
        | error text => simp [Bind.bind, Except.bind]
        | ok y =>
          cases rest.fields_from_variant platform owner map frame' with
          | error text => simp [Bind.bind, Except.bind]
          | ok ys =>
            simp only [Bind.bind, Except.bind, Except.ok.injEq]
            constructor
            · intro hsame
              exact Prod.mk.inj (Except.ok.inj hsame)
            · rintro ⟨rfl, rfl⟩
              rfl

/-- What becomes of the member of a union. -/
theorem Members.conversionAt : (ms : Members) → ms.Proper → ∀ index x, ms.ValidAt index x →
    ∀ frame, ∃ name v, ms.names[index]? = some name ∧
      (∀ invalid, ms.tagged_to_variant platform index x frame invalid =
        .ok [(fromLatin1 name, v)]) ∧
      ∀ map, map.lookup (fromLatin1 name) = some v → ∀ owner frame',
        ms.tagged_from_variant platform owner index map frame' = .ok x ↔
          ms.KeptAt platform index x
  | .nil, _, index, x, hx, frame => False.elim hx
  | .cons name member rest, hms, 0, x, hx, frame => by
      obtain ⟨v, hto, hfrom⟩ := member.conversion hms.1 x hx (.inl name :: frame)
      refine ⟨name, v, rfl, ?_, ?_⟩
      · intro invalid
        rw [Members.tagged_to_variant, hto]
        rfl
      · intro map hmap owner frame'
        simp only [Members.tagged_from_variant, hmap, Members.KeptAt]
        exact hfrom owner (.inl name :: frame')
  | .cons name member rest, hms, index + 1, x, hx, frame =>
      rest.conversionAt hms.2 index x hx frame

end

/-- A valid struct of a described type comes back exactly when no part of it is lost. -/
theorem comesBack_iff {t : Described} (ht : t.Proper) {x : t.Value} (hx : t.Valid x)
    (frame frame' : TraceFrame) :
    ComesBack platform t x frame frame' ↔ t.Kept platform x := by
  obtain ⟨v, hto, hfrom⟩ := t.conversion platform ht x hx frame
  constructor
  · rintro ⟨v', hv', hback⟩
    obtain rfl := Except.ok.inj (hto.symm.trans hv')
    exact (hfrom frame').mp hback
  · intro hkept
    exact ⟨v, hto, (hfrom frame').mpr hkept⟩

/-- A platform with 64 bits. -/
def platform64 : Platform where
  pointer := 8
  nunavutGetBit buf size i := decide (i < 8 * size) && buf.getLsbD i
  nunavutSetBit {width} buf size i b :=
    if i < 8 * size then
      if b then buf ||| BitVec.twoPow width i else buf &&& ~~~ BitVec.twoPow width i
    else buf
  getBit_inside := by
    intro width buf size i hi _
    simp [hi]
  getBit_behind := by
    intro width buf size i hi
    simp [Nat.not_lt_of_le hi]
  getLsbD_setBit := by
    intro width buf size i b hi hwidth j
    have hij : (i = j) = (j = i) := propext eq_comm
    by_cases hj : j = i
    · subst hj
      cases b with
      | true => simp [hi, Nat.lt_of_lt_of_le hi hwidth]
      | false => simp [hi]
    · by_cases hin : j < width
      · cases b <;> simp [hi, hj, hin]
      · have hbehind := BitVec.getLsbD_of_ge buf j (Nat.le_of_not_lt hin)
        cases b <;> simp [hi, hj, hij, hin, hbehind]
  value t _ :=
    match t with
    | .bool => false
    | .float => 0#32
    | .double => 0#64
    | .uint8_t => 0
    | .uint16_t => 0
    | .uint32_t => 0
    | .uint64_t => 0
    | .int8_t => 0
    | .int16_t => 0
    | .int32_t => 0
    | .int64_t => 0
  toUInt _ := none
  toString _ := []
  toRfc4122 _ := Vector.replicate uniqueIdSize 0
  toRfc4122_plain _ := rfl
  trace _ := ""

/-- A type with a text of at most fifteen bytes and a unique ID. -/
def namedNode : Described :=
  .record "Node" (.cons [110] (.FieldIsDynString 15)
    (.cons [105, 100] .FieldIsUniqueID .nil))

/-- A short name comes back, with the unique ID that is not set. -/
theorem comesBack_name : ComesBack platform64 namedNode
    (⟨[97], by decide⟩, Vector.replicate uniqueIdSize 0, ()) [] [] := by
  refine (comesBack_iff platform64 ?_ ?_ [] []).mpr ?_
  · exact ⟨by decide, ⟨by decide, by decide⟩, trivial, trivial⟩
  · exact ⟨⟨[97], by decide, by decide⟩, trivial, trivial⟩
  · exact ⟨⟨by decide, by decide⟩, rfl, trivial⟩

/-- A unique ID that is set is read as the null one. -/
theorem not_comesBack_uniqueId : ¬ ComesBack platform64 namedNode
    (⟨[97], by decide⟩, Vector.replicate uniqueIdSize 1, ()) [] [] := by
  rintro ⟨v, hto, hback⟩
  obtain rfl := Except.ok.inj hto
  have hread : Described.from_variant platform64 namedNode (.map [([110], .string [97]),
      ([105, 100], .string (fromLatin1 (uniqueIdText (Vector.replicate uniqueIdSize 1))))]) [] =
      .ok (⟨[97], by decide⟩, Vector.replicate uniqueIdSize 0, ()) := rfl
  have hsame := Except.ok.inj (hread.symm.trans hback)
  have hid : Vector.replicate uniqueIdSize (0 : UInt8) = Vector.replicate uniqueIdSize 1 :=
    (Prod.mk.inj (Prod.mk.inj hsame).2).1
  exact absurd hid (by decide)

end Radapter.Cyphal
