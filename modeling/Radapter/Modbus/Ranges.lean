import Mathlib.Data.BitVec
import Radapter.Modbus.Registers

/-!
# Numbers that a register takes

`encodeRegister` compares a number with the range of its register after `toUInt`, which has taken it
modulo `2 ^ 32`. So a 64-bit number is refused if what is left of it is too large: a register of 32
bits takes every number, and one of 16 bits those that lie in its range modulo `2 ^ 32`.
-/

namespace Radapter.Modbus

/-- The registers of integers, with their widths. -/
def IntegerRegister (reg : PreparedRegister) (w : ℕ) : Prop :=
  (reg.type = .uint16 ∧ w = 16) ∨ (reg.type = .uint32 ∧ w = 32)

instance (reg : PreparedRegister) (w : ℕ) : Decidable (IntegerRegister reg w) :=
  inferInstanceAs (Decidable (_ ∨ _))

/-- A number is encoded if it is in the range modulo `2 ^ 32`. -/
theorem encodes_longlong_iff (qt : Conversions) {reg : PreparedRegister} {w : ℕ}
    (hreg : IntegerRegister reg w) (v : BitVec 64) :
    (∃ words, encodeRegister qt reg (.longlong v) = .ok words) ↔ v.toNat % 2 ^ 32 < 2 ^ w := by
  have hui : (v.setWidth 32).toNat = v.toNat % 2 ^ 32 := BitVec.toNat_setWidth 32 v
  rcases hreg with ⟨htype, rfl⟩ | ⟨htype, rfl⟩
  · simp only [encodeRegister, htype, Scalar.toUInt, hui]
    split_ifs with hlarge
    · simp
      omega
    · simp
      omega
  · simp only [encodeRegister, htype, Scalar.toUInt]
    simp
    omega

/-- A number in the range of its register is what it is modulo `2 ^ 32`. -/
theorem toNat_mod_of_inRange {reg : PreparedRegister} {w : ℕ} (hreg : IntegerRegister reg w)
    {v : BitVec 64} (hv : 0 ≤ v.toInt ∧ v.toInt < 2 ^ w) : v.toNat % 2 ^ 32 < 2 ^ w := by
  have hcond := BitVec.toInt_eq_toNat_cond v
  have hlt := v.isLt
  rcases hreg with ⟨-, rfl⟩ | ⟨-, rfl⟩
  · split_ifs at hcond
    · omega
    · omega
  · omega

/-- A 64-bit number is encoded exactly when it is in the range of its register, if and only if it is
in the range or still too large for it modulo `2 ^ 32`. -/
theorem encodes_inRange_iff (qt : Conversions) {reg : PreparedRegister} {w : ℕ}
    (hreg : IntegerRegister reg w) (v : BitVec 64) :
    ((∃ words, encodeRegister qt reg (.longlong v) = .ok words) ↔
        0 ≤ v.toInt ∧ v.toInt < 2 ^ w) ↔
      (0 ≤ v.toInt ∧ v.toInt < 2 ^ w) ∨ 2 ^ w ≤ v.toNat % 2 ^ 32 := by
  rw [encodes_longlong_iff qt hreg]
  constructor
  · intro h
    rcases Nat.lt_or_ge (v.toNat % 2 ^ 32) (2 ^ w) with hsmall | hlarge
    · exact Or.inl (h.mp hsmall)
    · exact Or.inr hlarge
  · rintro (hin | hlarge)
    · exact ⟨fun _ => hin, fun _ => toNat_mod_of_inRange hreg hin⟩
    · constructor
      · exact fun hsmall => absurd hsmall (not_lt.mpr hlarge)
      · exact fun hin => absurd (toNat_mod_of_inRange hreg hin) (not_lt.mpr hlarge)

/-- The number 65536 is refused by a register of 16 bits. -/
theorem encodes_inRange_too_large :
    (∃ words, encodeRegister integersOnly { key := [120], type := .uint16, index := 0 }
        (.longlong 65536) = .ok words) ↔
      0 ≤ (65536 : BitVec 64).toInt ∧ (65536 : BitVec 64).toInt < 2 ^ 16 :=
  (encodes_inRange_iff integersOnly (Or.inl ⟨rfl, rfl⟩) 65536).mpr (by decide)

/-- A register of 16 bits takes `2 ^ 32` as 0, and one of 32 bits takes -1 as `2 ^ 32 - 1`. -/
theorem encodes_wrapped :
    encodeRegister integersOnly { key := [120], type := .uint16, index := 0 }
        (.longlong (2 ^ 32)) = .ok [0] ∧
      ¬ ((∃ words, encodeRegister integersOnly { key := [120], type := .uint16, index := 0 }
          (.longlong (2 ^ 32)) = .ok words) ↔
        0 ≤ ((2 : BitVec 64) ^ 32).toInt ∧ ((2 : BitVec 64) ^ 32).toInt < 2 ^ 16) ∧
      encodeRegister integersOnly { key := [120], type := .uint32, index := 0 }
        (.longlong (-1)) = .ok [0xFFFF, 0xFFFF] ∧
      ¬ ((∃ words, encodeRegister integersOnly { key := [120], type := .uint32, index := 0 }
          (.longlong (-1)) = .ok words) ↔
        0 ≤ (-1 : BitVec 64).toInt ∧ (-1 : BitVec 64).toInt < 2 ^ 32) := by
  refine ⟨rfl, ?_, rfl, ?_⟩
  · intro h
    have hin := h.mp ⟨[0], rfl⟩
    revert hin
    decide
  · intro h
    have hin := h.mp ⟨[0xFFFF, 0xFFFF], rfl⟩
    revert hin
    decide

end Radapter.Modbus
