import Mathlib.Data.Nat.Notation
import Radapter.Text

/-!
# Described types

The structs that the compiler of the data types generates are described member by member, with
an attribute where a member is more than a plain value. The conversions to and from messages are
templates over these descriptions.

The values carry their bounds: no array is longer than its capacity, and the bits behind the
length of a bit array, which are not part of its value, are clear.
-/

namespace Radapter.Cyphal

/-- The scalar types of the members. -/
inductive ScalarType where
  | bool
  | uint8_t
  | uint16_t
  | uint32_t
  | uint64_t
  | int8_t
  | int16_t
  | int32_t
  | int64_t
  | float
  | double
  deriving DecidableEq, Repr

/-- Floating-point values are given by their IEEE 754 bit patterns. -/
abbrev ScalarType.Value : ScalarType → Type
  | .bool => Bool
  | .uint8_t => UInt8
  | .uint16_t => UInt16
  | .uint32_t => UInt32
  | .uint64_t => UInt64
  | .int8_t => Int8
  | .int16_t => Int16
  | .int32_t => Int32
  | .int64_t => Int64
  | .float => BitVec 32
  | .double => BitVec 64

/-- The description of an enumeration: the names and values of its enumerators. -/
abbrev EnumDescription := List (Bytes × UInt8)

/-- `describe::enum_to_name`. -/
def EnumDescription.enum_to_name (e : EnumDescription) (value : UInt8) : Option Bytes :=
  (e.find? (fun enumerator => enumerator.2 = value)).map Prod.fst

/-- `describe::name_to_enum`. -/
def EnumDescription.name_to_enum (e : EnumDescription) (name : Bytes) : Option UInt8 :=
  e.lookup name

mutual

/-- A type: a scalar, or a described struct with its name. The tag of a union is an
enumeration. -/
inductive Described where
  | scalar (t : ScalarType)
  | record (name : String) (members : Members)
  | union (name : String) (UnionEnum : EnumDescription) (members : Members)

/-- A member with its attribute. A bit array and a bit mask are packed into bytes. -/
inductive Member where
  | FieldIsBitArray (capacity : ℕ)
  | FieldIsUniqueID
  | FieldIsBitmask (bytes : ℕ)
  | FieldIsDynString (capacity : ℕ)
  | FieldIsDynArray (elem : Described) (capacity : ℕ)
  | FieldIsEnum (name : String) (e : EnumDescription)
  | array (elem : Described) (size : ℕ)
  | plain (type : Described)

/-- The members of a struct, in order, with their names. -/
inductive Members where
  | nil
  | cons (name : Bytes) (member : Member) (rest : Members)

end

/-- The names of the members. -/
def Members.names : Members → List Bytes
  | .nil => []
  | .cons name _ rest => name :: rest.names

/-- `sizeof(field.bitpacked)` for an array of so many bits. -/
def bitpackedSize (capacity : ℕ) : ℕ := (capacity + 7) / 8

/-- An array of bits with its length. -/
@[ext] structure BitArray (capacity : ℕ) where
  bitpacked : BitVec (8 * bitpackedSize capacity)
  count : ℕ
  count_le : count ≤ capacity
  clear_behind : ∀ i, count ≤ i → bitpacked.getLsbD i = false

/-- The number of bytes of a unique ID. -/
def uniqueIdSize : ℕ := 16

mutual

/-- The values of a type. A union has the tag and the member that the tag selects. -/
def Described.Value : Described → Type
  | .scalar t => t.Value
  | .record _ members => members.Values
  | .union _ _ members => (tag : UInt8) × members.At tag.toNat

/-- The values of a member. -/
def Member.Value : Member → Type
  | .FieldIsBitArray capacity => BitArray capacity
  | .FieldIsUniqueID => Vector UInt8 uniqueIdSize
  | .FieldIsBitmask bytes => BitVec (8 * bytes)
  | .FieldIsDynString capacity => {elements : Bytes // elements.length ≤ capacity}
  | .FieldIsDynArray elem capacity => {elements : List elem.Value // elements.length ≤ capacity}
  | .FieldIsEnum _ _ => UInt8
  | .array elem size => {elements : List elem.Value // elements.length = size}
  | .plain type => type.Value

/-- The values of all members. -/
def Members.Values : Members → Type
  | .nil => Unit
  | .cons _ member rest => member.Value × rest.Values

/-- The values of the member at an index. -/
def Members.At : Members → ℕ → Type
  | .nil, _ => Unit
  | .cons _ member _, 0 => member.Value
  | .cons _ _ rest, i + 1 => rest.At i

end

end Radapter.Cyphal
