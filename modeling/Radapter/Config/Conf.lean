import Radapter.Text
import Mathlib.Data.Int.Notation
import Mathlib.Data.List.Basic

/-!
# Configurations

A configuration is a `QVariant` tree over every meta type that the described structs have members
of: integers of all widths, text, functions and objects beside lists and maps. Conversions between
meta types are Qt's and a parameter, with what is documented of a conversion that has nothing to do.
-/

namespace Radapter.Config

/-- The integer meta types, on a platform with a `long` of 64 bits. -/
inductive IntegerType where
  | schar
  | uchar
  | short
  | ushort
  | int
  | uint
  | long
  | ulong
  | longlong
  | ulonglong
  deriving DecidableEq, Repr

namespace IntegerType

/-- The bits of a value. -/
def width : IntegerType → ℕ
  | .schar | .uchar => 8
  | .short | .ushort => 16
  | .int | .uint => 32
  | .long | .ulong | .longlong | .ulonglong => 64

def signed : IntegerType → Bool
  | .schar | .short | .int | .long | .longlong => true
  | .uchar | .ushort | .uint | .ulong | .ulonglong => false

/-- `QMetaType::name`. -/
def name : IntegerType → String
  | .schar => "signed char"
  | .uchar => "uchar"
  | .short => "short"
  | .ushort => "ushort"
  | .int => "int"
  | .uint => "uint"
  | .long => "long"
  | .ulong => "ulong"
  | .longlong => "qlonglong"
  | .ulonglong => "qulonglong"

/-- The number that the bits stand for. -/
def toInt (t : IntegerType) (n : BitVec t.width) : ℤ := if t.signed then n.toInt else n.toNat

end IntegerType

/-- A `QObject` behind a pointer: its class and the classes that it inherits from. -/
structure Object where
  address : ℕ
  className : String
  inherits : List String
  deriving DecidableEq, Repr

/-- `QVariant`. A function is known by its place in the registry, a pointer to an object by the
class that it was declared with. -/
inductive Conf where
  | invalid
  | bool (b : Bool)
  | integer (t : IntegerType) (n : BitVec t.width)
  | real (bits : BitVec 64)
  | string (s : QString)
  | byteArray (b : Bytes)
  | stringList (items : List QString)
  | uuid (id : BitVec 128)
  | function (ref : ℕ)
  | object (declared : String) (o : Option Object)
  | list (items : List Conf)
  | map (entries : List (QString × Conf))

/-- `QMetaType`. -/
inductive MetaType where
  | UnknownType
  | Bool
  | integer (t : IntegerType)
  | Double
  | QString
  | QByteArray
  | QStringList
  | QUuid
  | LuaFunction
  | pointer (declared : String)
  | QVariantList
  | QVariantMap
  deriving DecidableEq, Repr

/-- The bytes of a literal of the source. -/
def text (s : String) : Bytes := s.toList.flatMap fun c => encodePoint c.toNat

/-- `QMetaType::name`, null for the unknown type. -/
def MetaType.name : MetaType → Option Bytes
  | .UnknownType => none
  | .Bool => some (text "bool")
  | .integer t => some (text t.name)
  | .Double => some (text "double")
  | .QString => some (text "QString")
  | .QByteArray => some (text "QByteArray")
  | .QStringList => some (text "QStringList")
  | .QUuid => some (text "QUuid")
  | .LuaFunction => some (text "radapter::LuaFunction")
  | .pointer declared => some (text declared ++ text "*")
  | .QVariantList => some (text "QVariantList")
  | .QVariantMap => some (text "QVariantMap")

namespace Conf

/-- `QVariant::metaType`. -/
def metaType : Conf → MetaType
  | .invalid => .UnknownType
  | .bool _ => .Bool
  | .integer t _ => .integer t
  | .real _ => .Double
  | .string _ => .QString
  | .byteArray _ => .QByteArray
  | .stringList _ => .QStringList
  | .uuid _ => .QUuid
  | .function _ => .LuaFunction
  | .object declared _ => .pointer declared
  | .list _ => .QVariantList
  | .map _ => .QVariantMap

/-- `QVariant::isNull`: no value, or a null pointer. -/
def isNull : Conf → Bool
  | .invalid => true
  | .object _ none => true
  | _ => false

/-- `QMap::value(key)`: invalid where the key is missing. -/
def value (entries : List (QString × Conf)) (key : QString) : Conf :=
  (entries.lookup key).getD .invalid

/-- The text in a variant of that meta type. -/
def asString : Conf → QString
  | .string s => s
  | _ => []

/-- The items in a variant of that meta type. -/
def asList : Conf → List Conf
  | .list items => items
  | _ => []

end Conf

/-- `TypeNameOf`. -/
def typeNameOf (conf : Conf) : Bytes := conf.metaType.name.getD (text "<nil>")

/-- The conversions of Qt. A type converts to itself and leaves the value as it is, a pointer to an
object converts to one to its base class, and what holds no value converts to nothing. -/
structure Qt where
  /-- `QMetaType::canConvert` from one type to another. -/
  canConvert : (source target : MetaType) → Bool
  /-- `QVariant::convert` to a type that the variant can be converted to. -/
  convert : (target : MetaType) → Conf → Conf
  /-- The comparison of a number with a variant that holds a floating-point number or a text. -/
  equalsNumber : ℤ → Conf → Bool
  canConvert_self : ∀ {t}, t ≠ .UnknownType → canConvert t t = true
  canConvert_unknown : ∀ t, canConvert .UnknownType t = false
  canConvert_object : ∀ cls, canConvert (.pointer cls) (.pointer "QObject") = true
  convert_self : ∀ conf, convert conf.metaType conf = conf
  convert_object : ∀ cls o, convert (.pointer "QObject") (.object cls o) = .object "QObject" o

attribute [simp] Qt.canConvert_unknown Qt.canConvert_object Qt.convert_self Qt.convert_object

/-- The conversions that every Qt has: those above, and between the integer types. -/
def Qt.plain : Qt where
  canConvert source target :=
    match source, target with
    | .UnknownType, _ => false
    | .pointer _, .pointer declared => declared = "QObject" || source = target
    | .integer _, .integer _ => true
    | source, target => source = target
  convert target conf :=
    match conf with
    | .object _ o => if target = .pointer "QObject" then .object "QObject" o else conf
    | conf => conf
  equalsNumber _ _ := false
  canConvert_self := by
    intro t ht
    cases t <;> simp_all
  canConvert_unknown _ := rfl
  canConvert_object _ := rfl
  convert_self conf := by
    cases conf with
    | object declared o =>
      simp only [Conf.metaType, MetaType.pointer.injEq]
      split
      · next h => rw [h]
      · rfl
    | _ => rfl
  convert_object _ _ := if_pos rfl

/-! ## Numbers -/

section Numbers

variable (qt : Qt)

/-- `QVariant::value` of an integer type: the lower bits of the number. -/
def toInteger (t : IntegerType) (conf : Conf) : BitVec t.width :=
  match conf with
  | .integer s n => .ofInt t.width (s.toInt n)
  | .bool b => .ofInt t.width b.toInt
  | conf =>
      match qt.convert (.integer t) conf with
      | .integer s n => .ofInt t.width (s.toInt n)
      | _ => 0

/-- The width in which two integers are compared: the promotion of the wider one, which has at
least 32 bits. -/
def comparedWidth (s t : IntegerType) : ℕ := if s.width = 64 ∨ t.width = 64 then 64 else 32

/-- `QVariant::operator==` of an integer and another variant. -/
def equals (t : IntegerType) (n : BitVec t.width) (conf : Conf) : Bool :=
  match conf with
  | .integer s m =>
      decide (BitVec.ofInt (comparedWidth t s) (t.toInt n) =
        BitVec.ofInt (comparedWidth t s) (s.toInt m))
  | .bool b => decide (t.toInt n = b.toInt)
  | .real _ | .string _ => qt.equalsNumber (t.toInt n) conf
  | _ => false

end Numbers

end Radapter.Config
