import Radapter.Variant

/-!
# Modbus registers and their words

The register types of the Modbus workers and the two functions that move a value between a
`QVariant` and the 16-bit words of a register, on a little-endian host. `decodeRegister` works in
place on a two-word array its caller owns, so it returns the array too.
-/

namespace Radapter.Modbus

/-- One Modbus word. -/
abbrev Word := BitVec 16

/-- `uint16_t data[2]`. -/
abbrev Words := Word × Word

/-- `ByteOrder`. -/
inductive ByteOrder where
  | big
  | little
  deriving DecidableEq, Repr

/-- `RegisterValueType`; `defaultValueType` is what a configuration starts with. -/
inductive RegisterValueType where
  | defaultValueType
  | uint16
  | uint32
  | float32
  | bit
  deriving DecidableEq, Repr

/-- `RegisterPacking`, with the defaults of a little-endian host. -/
structure RegisterPacking where
  byte : ByteOrder := .little
  word : ByteOrder := .little
  deriving DecidableEq, Repr

/-- `getSizeOf`: the size of a register's value in bytes; a bit still takes a word. -/
def getSizeOf : RegisterValueType → ℕ
  | .defaultValueType => 2
  | .bit => 2
  | .uint16 => 2
  | .float32 => 4
  | .uint32 => 4

/-- A handle on a Lua function. -/
structure LuaFunction where
  ref : ℕ
  deriving DecidableEq, Repr

/-- `PreparedRegister`: its size is always that of its type. -/
structure PreparedRegister where
  key : Bytes
  type : RegisterValueType
  packing : RegisterPacking := {}
  validator : Option LuaFunction := none
  index : ℤ
  sizeOf : ℕ := getSizeOf type
  sized : sizeOf = getSizeOf type := by rfl
  deriving DecidableEq

/-! ## Byte order -/

/-- `qbswap` of a word, which is `qToBigEndian` and `qFromBigEndian` on this host. -/
def qbswap16 (x : Word) : Word := BitVec.ofNat 16 (x.toNat % 256 * 256 + x.toNat / 256)

/-- `qbswap` of a 32-bit value. -/
def qbswap32 (x : BitVec 32) : BitVec 32 :=
  BitVec.ofNat 32 (x.toNat % 256 * 2 ^ 24 + x.toNat / 256 % 256 * 2 ^ 16 +
    x.toNat / 2 ^ 16 % 256 * 256 + x.toNat / 2 ^ 24)

/-- A 32-bit load from the array: the first word is the lower half. -/
def load32 (data : Words) : BitVec 32 := BitVec.ofNat 32 (data.2.toNat * 2 ^ 16 + data.1.toNat)

/-- The lower half of a 32-bit value. -/
def lowWord (x : BitVec 32) : Word := BitVec.ofNat 16 x.toNat

/-- The upper half of a 32-bit value. -/
def highWord (x : BitVec 32) : Word := BitVec.ofNat 16 (x.toNat / 2 ^ 16)

/-- `memcpy` of a 32-bit value into two words. -/
def store32 (x : BitVec 32) : List Word := [lowWord x, highWord x]

/-- `applyPacking`. -/
def applyPacking (words : List Word) (pack : RegisterPacking) : List Word :=
  let swapped :=
    match words with
    | [a, b] => if ByteOrder.little ≠ pack.word then [b, a] else [a, b]
    | other => other
  swapped.map (fun word => if pack.byte = .little then word else qbswap16 word)

/-- `parseWords<uint16_t>`. -/
def parseWords16 (packing : RegisterPacking) (data : Words) : Word :=
  if packing.byte = .big then qbswap16 data.1 else data.1

/-- `parseWords<uint32_t>`, and `parseWords<float>` on the pattern. -/
def parseWords32 (packing : RegisterPacking) (data : Words) : BitVec 32 :=
  if packing.byte = .big then qbswap32 (load32 data) else load32 data

/-! ## Decoding and encoding -/

/-- The swap `decodeRegister` makes in its caller's array. -/
def swapWords (packing : RegisterPacking) (data : Words) : Words :=
  if packing.word ≠ .little then (data.2, data.1) else data

/-- `decodeRegister`: the value, and the array as it is left. `none` when the program aborts. -/
def decodeRegister (reg : PreparedRegister) (data : Words) : Option (Scalar × Words) :=
  let data := swapWords reg.packing data
  match reg.type with
  | .defaultValueType => none
  | .bit => some (.bool (data.1 != 0), data)
  | .uint16 => some (.int ((parseWords16 reg.packing data).setWidth 32), data)
  | .uint32 => some (.uint (parseWords32 reg.packing data), data)
  | .float32 => some (.float (parseWords32 reg.packing data), data)

/-- Why `encodeRegister` gives no words. -/
inductive EncodeFailure where
  | refused
  | aborted
  deriving DecidableEq, Repr

/-- `encodeRegister`. -/
def encodeRegister (qt : Conversions) (reg : PreparedRegister) (v : Scalar) :
    Except EncodeFailure (List Word) :=
  match reg.type with
  | .defaultValueType => .error .aborted
  | .bit => .ok [if v.toBool qt then 1 else 0]
  | .uint16 =>
      match v.toUInt qt with
      | none => .error .refused
      | some ui =>
          if ui.toNat > 65535 then .error .refused
          else .ok (applyPacking [ui.setWidth 16] reg.packing)
  | .uint32 =>
      match v.toUInt qt with
      | none => .error .refused
      | some ui => .ok (applyPacking (store32 ui) reg.packing)
  | .float32 =>
      match v.toFloat qt with
      | none => .error .refused
      | some f => .ok (applyPacking (store32 f) reg.packing)

end Radapter.Modbus
