import Radapter.Cyphal.Types
import Radapter.Library.Assoc

/-!
# Conversion between structs and messages

`to_variant` turns a struct into a tree of `QVariant`s before the message goes to the scripts,
`from_variant` fills a struct from such a tree before it is serialized. Both walk the description
of the type, and raise where the value or the tree does not fit it.
-/

namespace Radapter.Cyphal

open Library

/-- `QVariant`, with the meta types that the two conversions tell apart. The entries of a map
stand in the order in which they were inserted. -/
inductive Variant where
  | invalid
  | value (t : ScalarType) (x : t.Value)
  | string (s : QString)
  | byteArray (b : Bytes)
  | stringList (items : List QString)
  | list (items : List Variant)
  | map (entries : List (QString × Variant))

/-- `TypeNameOf`, on a platform where `long` has 64 bits. -/
def Variant.typeName : Variant → String
  | .invalid => "<nil>"
  | .value .bool _ => "bool"
  | .value .uint8_t _ => "uchar"
  | .value .uint16_t _ => "ushort"
  | .value .uint32_t _ => "uint"
  | .value .uint64_t _ => "ulong"
  | .value .int8_t _ => "signed char"
  | .value .int16_t _ => "short"
  | .value .int32_t _ => "int"
  | .value .int64_t _ => "long"
  | .value .float _ => "float"
  | .value .double _ => "double"
  | .string _ => "QString"
  | .byteArray _ => "QByteArray"
  | .stringList _ => "QStringList"
  | .list _ => "QVariantList"
  | .map _ => "QVariantMap"

/-- `QVariant::toList`, where a list or a list of strings is expected. -/
def Variant.toList : Variant → Option (List Variant)
  | .list items => some items
  | .stringList items => some (items.map .string)
  | _ => none

/-- `QVariant::canConvert<QUuid>`. -/
def Variant.canConvertToUuid : Variant → Bool
  | .string _ => true
  | .byteArray _ => true
  | _ => false

/-- The way to a value from outside: names of members and indices of items, innermost first. -/
abbrev TraceFrame := List (Bytes ⊕ ℕ)

/-- What the conversions take from Qt, from the support header of the generated code and from the
platform. -/
structure Platform where
  /-- The size of a pointer. -/
  pointer : ℕ
  /-- `nunavutGetBit(buf, buf_size_bytes, off_bits)`. -/
  nunavutGetBit {width : ℕ} (buf : BitVec width) (buf_size_bytes off_bits : ℕ) : Bool
  /-- `nunavutSetBit(buf, buf_size_bytes, off_bits, value)`. -/
  nunavutSetBit {width : ℕ} (buf : BitVec width) (buf_size_bytes off_bits : ℕ) (value : Bool) :
    BitVec width
  /-- Bit `i` of the buffer is read. -/
  getBit_inside : ∀ {width : ℕ} (buf : BitVec width) {size i : ℕ}, i < 8 * size → i < width →
    nunavutGetBit buf size i = buf.getLsbD i
  /-- Bits behind the buffer are read as zeros. -/
  getBit_behind : ∀ {width : ℕ} (buf : BitVec width) {size i : ℕ}, 8 * size ≤ i →
    nunavutGetBit buf size i = false
  /-- Bit `i` of the buffer is written. -/
  getLsbD_setBit : ∀ {width : ℕ} (buf : BitVec width) {size i : ℕ} (b : Bool), i < 8 * size →
    8 * size ≤ width → ∀ j,
      (nunavutSetBit buf size i b).getLsbD j = if j = i then b else buf.getLsbD j
  /-- `QVariant::value<T>` where the variant has another type. -/
  value : (t : ScalarType) → Variant → t.Value
  /-- `QVariant::toUInt(&ok)` where the variant has another type. -/
  toUInt : Variant → Option UInt32
  /-- `QVariant::toString` where the variant has another type. -/
  toString : Variant → QString
  /-- `QVariant::value<QUuid>().toRfc4122()`. -/
  toRfc4122 : Variant → Vector UInt8 uniqueIdSize
  /-- A text without hyphens is no UUID, and gives the null one. -/
  toRfc4122_plain : ∀ {s : QString}, 45 ∉ s →
    toRfc4122 (.string s) = Vector.replicate uniqueIdSize 0
  /-- How a trace frame is printed. -/
  trace : TraceFrame → String

/-- `QString::fromLatin1`. -/
def fromLatin1 (text : Bytes) : QString := text.map (fun b => UInt16.ofNat b.toNat)

/-- `QString::toLatin1`. -/
def toLatin1 (text : QString) : Bytes :=
  text.map (fun u => if u.toNat < 256 then UInt8.ofNat u.toNat else 63)

/-- `fmt::format("\{:x}", byte)`: no leading zeros. -/
def formatHex (byte : UInt8) : Bytes :=
  (Nat.toDigits 16 byte.toNat).map (fun c => UInt8.ofNat c.toNat)

/-- `QVariant::value<T>`. -/
def Variant.valueAs (platform : Platform) (t : ScalarType) (v : Variant) : t.Value :=
  match v with
  | .value u x => if h : u = t then h ▸ x else platform.value t v
  | _ => platform.value t v

/-- `QVariant::toUInt(&ok)`. -/
def Variant.asUInt (platform : Platform) (v : Variant) : Option UInt32 :=
  match v with
  | .value .uint32_t n => some n
  | _ => platform.toUInt v

/-- `QVariant::toString`. -/
def Variant.asString (platform : Platform) (v : Variant) : QString :=
  match v with
  | .string s => s
  | _ => platform.toString v

/-- A text in an error, byte by byte. -/
def printName (name : Bytes) : String := String.ofList (name.map (fun b => Char.ofNat b.toNat))

/-- `fmt::join` of names. -/
def printNames (names : List Bytes) : String := ", ".intercalate (names.map printName)

/-! ## Structs to messages -/

section Conversion

variable (platform : Platform)

/-- The items of an array, from an index on. -/
def itemsToVariant {α : Type} (to_variant : α → TraceFrame → Except String Variant)
    (frame : TraceFrame) : ℕ → List α → Except String (List Variant)
  | _, [] => .ok []
  | i, item :: rest => do
      let v ← to_variant item (.inr i :: frame)
      let vs ← itemsToVariant to_variant frame (i + 1) rest
      .ok (v :: vs)

/-- The bits of a bit array as a list of booleans. The size handed to `nunavutGetBit` is that of a
pointer to the packed bits. -/
def bitArrayToVariant {capacity : ℕ} (field : BitArray capacity) : List Variant :=
  (List.range field.count).map
    (fun i => .value .bool (platform.nunavutGetBit field.bitpacked platform.pointer i))

/-- The text of a unique ID. -/
def uniqueIdText (field : Vector UInt8 uniqueIdSize) : Bytes := field.toList.flatMap formatHex

/-- The numbers of the bits that are set in a mask. -/
def bitmaskToVariant {bytes : ℕ} (field : BitVec (8 * bytes)) : List Variant :=
  ((List.range (8 * bytes)).filter (fun i => platform.nunavutGetBit field bytes i)).map
    (fun i => .value .uint32_t (UInt32.ofNat i))

mutual

/-- `to_variant`. -/
def Described.to_variant : (t : Described) → t.Value → TraceFrame → Except String Variant
  | .scalar t, x, _ => .ok (.value t x)
  | .record _ members, x, frame => do
      let result ← members.fields_to_variant x frame []
      .ok (.map result)
  | .union name _ members, ⟨tag, x⟩, frame => do
      let result ← members.tagged_to_variant tag.toNat x frame
        (s!"{name}: Invalid (or incorrectly described) _tag_ field in {platform.trace frame} -> "
          ++ "0x" ++ printName (formatHex tag))
      .ok (.map result)

/-- `field_to_variant`. -/
def Member.to_variant : (m : Member) → m.Value → TraceFrame → Except String Variant
  | .FieldIsBitArray _, x, _ => .ok (.list (bitArrayToVariant platform x))
  | .FieldIsUniqueID, x, _ => .ok (.string (fromLatin1 (uniqueIdText x)))
  | .FieldIsBitmask _, x, _ => .ok (.list (bitmaskToVariant platform x))
  | .FieldIsDynString _, x, _ => .ok (.string (fromUtf8Sized x.val x.val.length))
  | .FieldIsDynArray elem _, x, frame => do
      let res ← itemsToVariant elem.to_variant frame 0 x.val
      .ok (.list res)
  | .FieldIsEnum name e, x, _ =>
      match e.enum_to_name x with
      | none => .error (s!"Invalid value for enum({name}) -> 0x" ++ printName (formatHex x))
      | some enumerator => .ok (.string (fromLatin1 enumerator))
  | .array elem _, x, frame => do
      let res ← itemsToVariant elem.to_variant frame 0 x.val
      .ok (.list res)
  | .plain type, x, frame => type.to_variant x frame

/-- The members of a record, put into the result one after the other. -/
def Members.fields_to_variant : (ms : Members) → ms.Values → TraceFrame →
    List (QString × Variant) → Except String (List (QString × Variant))
  | .nil, _, _, result => .ok result
  | .cons name member rest, (x, xs), frame, result => do
      let v ← member.to_variant x (.inl name :: frame)
      rest.fields_to_variant xs frame (Assoc.put (fromLatin1 name) v result)

/-- The member of a union at the index that the tag gives. -/
def Members.tagged_to_variant : (ms : Members) → (index : ℕ) → ms.At index → TraceFrame →
    String → Except String (List (QString × Variant))
  | .nil, _, _, _, invalid => .error invalid
  | .cons name member _, 0, x, frame, _ => do
      let v ← member.to_variant x (.inl name :: frame)
      .ok [(fromLatin1 name, v)]
  | .cons _ _ rest, index + 1, x, frame, invalid => rest.tagged_to_variant index x frame invalid

end

/-! ## Messages to structs -/

/-- The calls of `nunavutSetBit` for the items of a list, from an index on. -/
def setBits {width : ℕ} (size : ℕ) : ℕ → List Bool → BitVec width → BitVec width
  | _, [], buf => buf
  | i, b :: rest, buf => setBits size (i + 1) rest (platform.nunavutSetBit buf size i b)

/-- The calls write the items from their index on, and nothing else. -/
theorem getLsbD_setBits {width size : ℕ} (hsize : 8 * size ≤ width) {bits : List Bool} {i : ℕ}
    (hbits : i + bits.length ≤ 8 * size) (buf : BitVec width) (j : ℕ) :
    (setBits platform size i bits buf).getLsbD j =
      if i ≤ j then bits.getD (j - i) (buf.getLsbD j) else buf.getLsbD j := by
  induction bits generalizing i buf with
  | nil => simp [setBits]
  | cons b rest ih =>
    rw [List.length_cons] at hbits
    rw [setBits, ih (by omega), platform.getLsbD_setBit buf b (by omega) hsize]
    rcases Nat.lt_trichotomy j i with hlt | rfl | hgt
    · rw [if_neg (by omega), if_neg (by omega), if_neg (by omega)]
    · rw [if_neg (by omega), if_pos rfl, if_pos (Nat.le_refl j), Nat.sub_self]
      rfl
    · obtain ⟨k, rfl⟩ := Nat.exists_eq_add_of_lt hgt
      rw [if_pos (by omega), if_neg (by omega), if_pos (by omega),
        show i + k + 1 - i = k + 1 by omega, show i + k + 1 - (i + 1) = k by omega]
      rfl

/-- A bit array from the items of a list. -/
def bitArrayOfList {capacity : ℕ} (bits : List Bool)
    (h : bits.length ≤ bitpackedSize capacity) : BitArray capacity where
  bitpacked := setBits platform (bitpackedSize capacity) 0 bits 0#_
  count := bits.length
  count_le := by
    unfold bitpackedSize at h
    omega
  clear_behind := by
    intro i hi
    rw [getLsbD_setBits platform (Nat.le_refl _) (by omega), if_pos (Nat.zero_le i),
      List.getD_eq_getElem?_getD, List.getElem?_eq_none (by omega), Option.getD_none]
    exact BitVec.getLsbD_zero

/-- The loop that sets the bits of a mask, from an item on. -/
def bitmaskOfList {bytes : ℕ} (where_ : String) : ℕ → List Variant → BitVec (8 * bytes) →
    Except String (BitVec (8 * bytes))
  | _, [], field => .ok field
  | i, v :: rest, field =>
      let failed := s!"{where_}: could not cast item#{i} (type: {v.typeName}) to bit index "
        ++ s!"(max index: {bytes * 8})"
      match v.asUInt platform with
      | none => .error failed
      | some u =>
          if bytes * 8 < u.toNat then .error failed
          else bitmaskOfList where_ (i + 1) rest (platform.nunavutSetBit field bytes u.toNat true)

/-- A bit array from a list of its bits. -/
def bitArrayFromVariant (capacity : ℕ) (owner : String) (v : Variant) (frame : TraceFrame) :
    Except String (BitArray capacity) :=
  match v with
  | .list list =>
      let bits := list.map (fun item => item.valueAs platform .bool)
      if h : bits.length ≤ bitpackedSize capacity then .ok (bitArrayOfList platform bits h)
      else .error (s!"{owner}: {platform.trace frame}: List exceeds max size of "
        ++ s!"{bitpackedSize capacity}, got: {list.length}")
  | _ => .error s!"{owner}: {platform.trace frame}: Expected a list, got: {v.typeName}"

/-- A unique ID from a UUID. -/
def uniqueIdFromVariant (owner : String) (v : Variant) (frame : TraceFrame) :
    Except String (Vector UInt8 uniqueIdSize) :=
  if v.canConvertToUuid then .ok (platform.toRfc4122 v)
  else .error s!"{owner}: {platform.trace frame}: Expected a uuid, got: {v.typeName}"

/-- A bit mask from the numbers of its bits. -/
def bitmaskFromVariant (bytes : ℕ) (owner : String) (v : Variant) (frame : TraceFrame) :
    Except String (BitVec (8 * bytes)) :=
  match v with
  | .list list => bitmaskOfList platform s!"{owner}: {platform.trace frame}" 0 list 0#_
  | _ => .error s!"{owner}: {platform.trace frame}: Expected a list of bits, got: {v.typeName}"

/-- A text. The last element is kept for the NUL that is copied with it. -/
def dynStringFromVariant (capacity : ℕ) (owner : String) (v : Variant) (frame : TraceFrame) :
    Except String {elements : Bytes // elements.length ≤ capacity} :=
  match v with
  | .string s =>
      if h : (toStdString s).length ≤ capacity - 1 then
        .ok ⟨toStdString s, Nat.le_trans h (Nat.sub_le capacity 1)⟩
      else .error (s!"{owner}: {platform.trace frame}: List exceeds max size of "
        ++ s!"{capacity - 1}, got: {(toStdString s).length}")
  | _ => .error s!"{owner}: {platform.trace frame}: Expected a string, got: {v.typeName}"

/-- An enumerator from its name. -/
def enumFromVariant (e : EnumDescription) (owner : String) (v : Variant) (frame : TraceFrame) :
    Except String UInt8 :=
  let str := v.asString platform
  if str = [] then
    .error s!"{owner}: {platform.trace frame}: expected string, got: {v.typeName}"
  else
    match e.name_to_enum (toLatin1 str) with
    | none => .error (s!"{owner}: {platform.trace frame}: invalid enum value: "
        ++ printName (toStdString str) ++ s!". Valid: [{printNames (e.map Prod.fst)}]")
    | some res => .ok res

/-- The items of a list, read one after the other from an index on. -/
def itemsFromVariant {α : Type} (from_variant : Variant → TraceFrame → Except String α)
    (frame : TraceFrame) :
    ℕ → (list : List Variant) → Except String {items : List α // items.length = list.length}
  | _, [] => .ok ⟨[], rfl⟩
  | i, v :: rest => do
      let item ← from_variant v (.inr i :: frame)
      let items ← itemsFromVariant from_variant frame (i + 1) rest
      .ok ⟨item :: items.val, congrArg (· + 1) items.property⟩

/-- An array with a length from a list. -/
def dynArrayFromVariant {α : Type} (from_variant : Variant → TraceFrame → Except String α)
    (capacity : ℕ) (owner : String) (v : Variant) (frame : TraceFrame) :
    Except String {elements : List α // elements.length ≤ capacity} :=
  match v.toList with
  | some list =>
      if h : list.length ≤ capacity then do
        let items ← itemsFromVariant from_variant frame 0 list
        .ok ⟨items.val, items.property.le.trans h⟩
      else .error (s!"{owner}: {platform.trace frame}: List exceeds max size of "
        ++ s!"{capacity}, got: {list.length}")
  | none => .error s!"{owner}: {platform.trace frame}: Expected a list, got: {v.typeName}"

/-- A fixed array from a list. -/
def arrayFromVariant {α : Type} (from_variant : Variant → TraceFrame → Except String α)
    (size : ℕ) (owner : String) (v : Variant) (frame : TraceFrame) :
    Except String {elements : List α // elements.length = size} :=
  match v.toList with
  | some list =>
      if h : list.length = size then do
        let items ← itemsFromVariant from_variant frame 0 list
        .ok ⟨items.val, items.property.trans h⟩
      else .error (s!"{owner}: {platform.trace frame}: Expected a list of size "
        ++ s!"{size}, got: {list.length}")
  | none => .error s!"{owner}: {platform.trace frame}: Expected a list, got: {v.typeName}"

/-- The check that a struct is read from a map. -/
def expectMap (name : String) (v : Variant) (frame : TraceFrame) :
    Except String (List (QString × Variant)) :=
  match v with
  | .map entries => .ok entries
  | _ => .error s!"{name}: type {platform.trace frame}: map expected"

/-- The tag that the only key of a map names. -/
def tagOfMap (name : String) (UnionEnum : EnumDescription) (names : List Bytes)
    (map : List (QString × Variant)) (frame : TraceFrame) : Except String UInt8 :=
  match map with
  | [(tag, _)] =>
      match UnionEnum.name_to_enum (toLatin1 tag) with
      | some etag => .ok etag
      | none => .error (s!"{name}: type {platform.trace frame}: tag is invalid value: "
          ++ printName (toStdString tag) ++ s!". Valid: [{printNames names}]")
  | _ => .error (s!"{name}: type {platform.trace frame}: expected union (map with single item). "
      ++ s!"Map has {map.length} elems")

mutual

/-- `from_variant`. -/
def Described.from_variant : (t : Described) → Variant → TraceFrame → Except String t.Value
  | .scalar t, v, _ => .ok (v.valueAs platform t)
  | .record name members, v, frame => do
      let map ← expectMap platform name v frame
      members.fields_from_variant name map frame
  | .union name UnionEnum members, v, frame => do
      let map ← expectMap platform name v frame
      let etag ← tagOfMap platform name UnionEnum members.names map frame
      let x ← members.tagged_from_variant name etag.toNat map frame
      .ok ⟨etag, x⟩

/-- `field_from_variant`, for a member that is in the map. -/
def Member.from_variant : (m : Member) → (owner : String) → Variant → TraceFrame →
    Except String m.Value
  | .FieldIsBitArray capacity, owner, v, frame =>
      bitArrayFromVariant platform capacity owner v frame
  | .FieldIsUniqueID, owner, v, frame => uniqueIdFromVariant platform owner v frame
  | .FieldIsBitmask bytes, owner, v, frame => bitmaskFromVariant platform bytes owner v frame
  | .FieldIsDynString capacity, owner, v, frame =>
      dynStringFromVariant platform capacity owner v frame
  | .FieldIsDynArray elem capacity, owner, v, frame =>
      dynArrayFromVariant platform elem.from_variant capacity owner v frame
  | .FieldIsEnum _ e, owner, v, frame => enumFromVariant platform e owner v frame
  | .array elem size, owner, v, frame =>
      arrayFromVariant platform elem.from_variant size owner v frame
  | .plain type, _, v, frame => type.from_variant v frame

/-- The members of a record, each looked up in the map. -/
def Members.fields_from_variant : (ms : Members) → (owner : String) → List (QString × Variant) →
    TraceFrame → Except String ms.Values
  | .nil, _, _, _ => .ok ()
  | .cons name member rest, owner, map, frame =>
      match map.lookup (fromLatin1 name) with
      | none => .error s!"{owner}: {platform.trace (.inl name :: frame)}: not found"
      | some v => do
          let x ← member.from_variant owner v (.inl name :: frame)
          let xs ← rest.fields_from_variant owner map frame
          .ok (x, xs)

/-- The member of a union at the index that the tag gives. -/
def Members.tagged_from_variant : (ms : Members) → (owner : String) → (index : ℕ) →
    List (QString × Variant) → TraceFrame → Except String (ms.At index)
  | .nil, owner, _, _, frame =>
      .error s!"{owner}: Error in description of type: {platform.trace frame}"
  | .cons name member _, owner, 0, map, frame =>
      match map.lookup (fromLatin1 name) with
      | none => .error s!"{owner}: {platform.trace (.inl name :: frame)}: not found"
      | some v => member.from_variant owner v (.inl name :: frame)
  | .cons _ _ rest, owner, index + 1, map, frame =>
      rest.tagged_from_variant owner index map frame

end

end Conversion

end Radapter.Cyphal
