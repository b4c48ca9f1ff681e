import Radapter.Modbus.Rounds
import Radapter.Modbus.Slave

/-!
# Values on a slave's server

The value of a register on a `QModbusServer` depends on the register's own words. Two values of one
register are equal for Qt if they are one number, where the two zeros are one and a NaN is none.
-/

namespace Radapter

/-- The value with one zero: the two zeros are one number. -/
def Scalar.number : Scalar → Scalar
  | .float bits => .float (if bits.setWidth 31 = 0 then 0 else bits)
  | v => v

/-- Null and the values that registers have. -/
def Scalar.IsRegisterValue : Scalar → Prop
  | .invalid => True
  | .bool _ => True
  | .int _ => True
  | .uint _ => True
  | .float _ => True
  | _ => False

/-- Floats that are no NaN are equal if and only if they are one number. -/
theorem Scalar.floatEq_iff {a b : BitVec 32} (ha : Scalar.isNaN (.float a) = false) :
    floatEq a b = true ↔ number (.float a) = number (.float b) := by
  simp only [isNaN] at ha
  simp only [floatEq, ha, Bool.not_false, Bool.true_and, Bool.and_eq_true, Bool.not_eq_true',
    Bool.or_eq_true, beq_iff_eq, number, Scalar.float.injEq]
  constructor
  · rintro ⟨-, rfl | ⟨hza, hzb⟩⟩
    · rfl
    · rw [if_pos hza, if_pos hzb]
  · intro h
    by_cases hza : a.setWidth 31 = 0 <;> by_cases hzb : b.setWidth 31 = 0
    · exact ⟨by rw [hzb]; rfl, Or.inr ⟨hza, hzb⟩⟩
    · rw [if_pos hza, if_neg hzb] at h
      exact absurd (by rw [← h]; rfl) hzb
    · rw [if_neg hza, if_pos hzb] at h
      exact absurd (by rw [h]; rfl) hza
    · rw [if_neg hza, if_neg hzb] at h
      exact ⟨h ▸ ha, Or.inl h⟩

namespace Modbus

open Library

/-- A register decodes to null or to a value of its type. -/
theorem decoded_isRegisterValue (reg : PreparedRegister) (data : Words) :
    (decoded reg data).IsRegisterValue := by
  unfold decoded decodeRegister
  cases reg.type <;> trivial

/-- Only a `float32` register can hold a NaN. -/
theorem decoded_isNaN {reg : PreparedRegister} (h : reg.type ≠ .float32) (data : Words) :
    (decoded reg data).isNaN = false := by
  unfold decoded decodeRegister
  cases htype : reg.type with
  | float32 => exact absurd htype h
  | _ => rfl

/-- Two values of one register are equal if they are one number, which a NaN is not. -/
theorem equals_decoded_iff (qt : Conversions) (reg : PreparedRegister) {data other : Words}
    (hnan : (decoded reg data).isNaN = false) :
    (decoded reg data).equals qt (decoded reg other) = true ↔
      (decoded reg data).number = (decoded reg other).number := by
  revert hnan
  unfold decoded decodeRegister
  cases reg.type with
  | defaultValueType => simp [Scalar.equals, Scalar.wordBits]
  | bit =>
    intro _
    have hbool (b c : Bool) : (Scalar.bool b).equals qt (.bool c) = true ↔
        (Scalar.bool b).number = (Scalar.bool c).number := by
      cases b <;> cases c <;> simp [Scalar.equals, Scalar.wordBits, Scalar.number]
    exact hbool _ _
  | uint16 => simp [Scalar.equals, Scalar.wordBits, Scalar.number]
  | uint32 => simp [Scalar.equals, Scalar.wordBits, Scalar.number]
  | float32 =>
    intro hnan
    exact Scalar.floatEq_iff hnan

/-- Packing keeps the number of words. -/
@[simp] theorem length_applyPacking (words : List Word) (pack : RegisterPacking) :
    (applyPacking words pack).length = words.length := by
  unfold applyPacking
  rw [List.length_map]
  split
  · split_ifs <;> rfl
  · rfl

/-- The words of a register fill it. -/
theorem encodeRegister_length {qt : Conversions} {reg : PreparedRegister} {v : Scalar}
    {words : List Word} (h : encodeRegister qt reg v = .ok words) :
    words.length = reg.sizeOf / 2 := by
  rw [reg.sized]
  unfold encodeRegister at h
  cases htype : reg.type with
  | defaultValueType => simp [htype] at h
  | bit =>
    simp only [htype, Except.ok.injEq] at h
    rw [← h]
    rfl
  | uint16 =>
    simp only [htype] at h
    split at h
    · cases h
    · split_ifs at h
      cases h
      simp [getSizeOf]
  | uint32 =>
    simp only [htype] at h
    split at h
    · cases h
    · cases h
      simp [store32, getSizeOf]
  | float32 =>
    simp only [htype] at h
    split at h
    · cases h
    · cases h
      simp [store32, getSizeOf]

/-! ## Values on the server -/

/-- The value of a register on the server. -/
def QModbusServer.valueOf (server : QModbusServer) (s : server.State) (type : RegisterType)
    (reg : PreparedRegister) : Scalar := decoded reg (server.wordsOf s type reg)

/-- The words of the register have addresses of 16 bits. -/
def PreparedRegister.Addressable (reg : PreparedRegister) : Prop :=
  0 ≤ reg.index ∧ reg.index + (reg.sizeOf / 2 : ℕ) ≤ 2 ^ 16

section Server

variable {server : QModbusServer} {s t : server.State} {type : RegisterType}
  {reg : PreparedRegister}

/-- A register has one word or two. -/
theorem sizeOf_eq_two_or_four (reg : PreparedRegister) : reg.sizeOf = 2 ∨ reg.sizeOf = 4 := by
  by_cases hfour : reg.sizeOf = 4
  · exact Or.inr hfour
  · exact Or.inl (sizeOf_eq_two_of_ne hfour)

/-- The words of an addressable register stand at its own addresses. -/
theorem valueOf_eq (hreg : reg.Addressable) {first second : Option Word}
    (hfirst : server.data s type reg.index = first)
    (hsecond : reg.sizeOf = 4 → server.data s type (reg.index + 1) = second) :
    server.valueOf s type reg = decoded reg (reg.places (first.getD 0) (second.getD 0)) := by
  obtain ⟨hlow, hhigh⟩ := hreg
  have hsize := sizeOf_eq_two_or_four reg
  have hmod : reg.index % 2 ^ 16 = reg.index := by omega
  simp only [QModbusServer.valueOf, QModbusServer.wordsOf, PreparedRegister.places, hmod, hfirst]
  split_ifs with hfour
  · have hmod' : (reg.index + 1) % 2 ^ 16 = reg.index + 1 := by omega
    rw [hmod', hsecond hfour]
  · rfl

/-- A value depends on the register's own words. -/
theorem valueOf_congr (hreg : reg.Addressable)
    (h : ∀ i : ℕ, i < reg.sizeOf / 2 →
      server.data t type (reg.index + i) = server.data s type (reg.index + i)) :
    server.valueOf t type reg = server.valueOf s type reg := by
  have hsize := sizeOf_eq_two_or_four reg
  have hfirst := h 0 (by omega)
  rw [Int.natCast_zero, Int.add_zero] at hfirst
  have hsecond : reg.sizeOf = 4 →
      server.data t type (reg.index + 1) = server.data s type (reg.index + 1) :=
    fun hfour => h 1 (by omega)
  rw [valueOf_eq hreg hfirst hsecond, valueOf_eq hreg rfl fun _ => rfl]

/-- A write leaves the registers alone that it does not overlap. -/
theorem valueOf_other {unit : QModbusDataUnit} {signals : Bool}
    (h : server.setData s unit = some (t, signals)) (hreg : reg.Addressable)
    (hother : type ≠ unit.registerType ∨ ¬ reg.Overlaps unit.startAddress unit.values.length) :
    server.valueOf t type reg = server.valueOf s type reg := by
  apply valueOf_congr hreg
  intro i hi
  apply server.data_other h
  rcases hother with htype | hapart
  · exact Or.inl htype
  · right
    simp only [PreparedRegister.Overlaps, not_and] at hapart
    by_cases hbelow : reg.index + i < unit.startAddress
    · exact Or.inl hbelow
    · right
      by_contra habove
      exact hapart (by omega) (by omega)

/-- The value of a register whose words have been written. -/
theorem valueOf_written {unit : QModbusDataUnit} {signals : Bool}
    (h : server.setData s unit = some (t, signals)) (hreg : reg.Addressable)
    (htype : unit.registerType = type) (hstart : unit.startAddress = reg.index)
    (hlength : unit.values.length = reg.sizeOf / 2) :
    server.valueOf t type reg =
      decoded reg (reg.places (unit.values.getD 0 0) (unit.values.getD 1 0)) := by
  have hsize := sizeOf_eq_two_or_four reg
  have hfirst := server.data_written h 0 (by omega)
  rw [htype, hstart, Int.natCast_zero, Int.add_zero] at hfirst
  have hsecond (hfour : reg.sizeOf = 4) :
      server.data t type (reg.index + 1) = unit.values[1]? := by
    have hwritten := server.data_written h 1 (by omega)
    rwa [htype, hstart, Int.natCast_one] at hwritten
  rw [valueOf_eq hreg hfirst hsecond, List.getD_eq_getElem?_getD, List.getD_eq_getElem?_getD]

end Server

end Modbus

end Radapter
