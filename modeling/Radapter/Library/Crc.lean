import Mathlib.Data.BitVec
import Mathlib.Data.Nat.Notation

/-!
# Reflected cyclic redundancy checks

A reflected checksum moves its register down one bit at a time and adds the polynomial for each bit
that falls out. The step is linear, so eight steps can be looked up in a table by the low octet of
the register.
-/

namespace Library.Crc

variable {w : ℕ} (poly : BitVec w)

/-- One bit falls out of the register. -/
def bitStep (c : BitVec w) : BitVec w :=
  if c.getLsbD 0 then (c >>> 1) ^^^ poly else c >>> 1

/-- A number of bits fall out of the register. -/
def bitSteps : ℕ → BitVec w → BitVec w
  | 0, c => c
  | n + 1, c => bitSteps n (bitStep poly c)

/-- The register after one more byte. -/
def addByte (c : BitVec w) (b : BitVec 8) : BitVec w := bitSteps poly 8 (c ^^^ b.setWidth w)

/-- The register after the bytes of a message. -/
def checksum (c : BitVec w) (bytes : List (BitVec 8)) : BitVec w := bytes.foldl (addByte poly) c

/-- The step is linear in the register. -/
theorem bitStep_xor (a b : BitVec w) :
    bitStep poly (a ^^^ b) = bitStep poly a ^^^ bitStep poly b := by
  unfold bitStep
  rw [BitVec.getLsbD_xor, BitVec.ushiftRight_xor_distrib]
  cases a.getLsbD 0 <;> cases b.getLsbD 0
  · rfl
  · exact BitVec.xor_assoc ..
  · simp only [Bool.bne_false, if_true, Bool.false_eq_true, if_false]
    ac_rfl
  · simp only [bne_self_eq_false, Bool.false_eq_true, if_false, if_true]
    calc a >>> 1 ^^^ b >>> 1
        = (a >>> 1 ^^^ b >>> 1) ^^^ (poly ^^^ poly) := by rw [BitVec.xor_self, BitVec.xor_zero]
      _ = (a >>> 1 ^^^ poly) ^^^ (b >>> 1 ^^^ poly) := by ac_rfl

/-- So are any number of steps. -/
theorem bitSteps_xor (n : ℕ) (a b : BitVec w) :
    bitSteps poly n (a ^^^ b) = bitSteps poly n a ^^^ bitSteps poly n b := by
  induction n generalizing a b with
  | zero => rfl
  | succ n ih => rw [bitSteps, bitSteps, bitSteps, bitStep_xor, ih]

/-- If only zeros fall out, the register is shifted. -/
theorem bitSteps_of_low_clear {n : ℕ} {c : BitVec w} (hclear : ∀ i < n, c.getLsbD i = false) :
    bitSteps poly n c = c >>> n := by
  induction n generalizing c with
  | zero => rw [bitSteps, BitVec.ushiftRight_zero]
  | succ n ih =>
    have hstep : bitStep poly c = c >>> 1 := by
      rw [bitStep, hclear 0 (Nat.succ_pos n), if_neg Bool.false_ne_true]
    have hrest : ∀ i < n, (c >>> 1).getLsbD i = false := by
      intro i hi
      rw [BitVec.getLsbD_ushiftRight]
      exact hclear (1 + i) (by omega)
    rw [bitSteps, hstep, ih hrest, ← BitVec.shiftRight_add, Nat.add_comm]

/-! ## Tables -/

/-- The bits of a register that fall out in a number of steps. -/
def low (n : ℕ) (c : BitVec w) : BitVec w := (c.setWidth n).setWidth w

/-- The bits that fall out are the lowest ones. -/
theorem getLsbD_low {n i : ℕ} (c : BitVec w) :
    (low n c).getLsbD i = (decide (i < n) && c.getLsbD i) := by
  rw [low, BitVec.getLsbD_setWidth, BitVec.getLsbD_setWidth]
  by_cases hi : i < w
  · simp [hi]
  · simp [hi, BitVec.getLsbD_of_ge c i (Nat.le_of_not_lt hi)]

/-- After as many steps they are gone. -/
theorem low_shiftRight (n : ℕ) (c : BitVec w) : low n c >>> n = 0#w := by
  apply BitVec.eq_of_getLsbD_eq
  intro i _
  rw [BitVec.getLsbD_ushiftRight, getLsbD_low]
  simp

/-- The bits that fall out are added to the others after their shift. -/
theorem bitSteps_eq (n : ℕ) (c : BitVec w) :
    bitSteps poly n c = (c >>> n) ^^^ bitSteps poly n (low n c) := by
  have hclear : ∀ i < n, (c ^^^ low n c).getLsbD i = false := by
    intro i hi
    rw [BitVec.getLsbD_xor, getLsbD_low, decide_eq_true hi, Bool.true_and, Bool.xor_self]
  have hshift : (c ^^^ low n c) >>> n = c >>> n := by
    rw [BitVec.ushiftRight_xor_distrib, low_shiftRight, BitVec.xor_zero]
  calc bitSteps poly n c
      = bitSteps poly n ((c ^^^ low n c) ^^^ low n c) := by
        rw [BitVec.xor_assoc, BitVec.xor_self, BitVec.xor_zero]
    _ = (c >>> n) ^^^ bitSteps poly n (low n c) := by
        rw [bitSteps_xor, bitSteps_of_low_clear poly hclear, hshift]

/-- One byte with a table: the entry for the low octet is added to the shifted register. -/
theorem addByte_eq (c : BitVec w) (b : BitVec 8) :
    addByte poly c b = (c >>> 8) ^^^ bitSteps poly 8 (low 8 (c ^^^ b.setWidth w)) := by
  have hbyte : b.setWidth w >>> 8 = 0#w := by
    apply BitVec.eq_of_getLsbD_eq
    intro i _
    rw [BitVec.getLsbD_ushiftRight, BitVec.getLsbD_setWidth]
    simp
  rw [addByte, bitSteps_eq, BitVec.ushiftRight_xor_distrib, hbyte, BitVec.xor_zero]

/-! ## Registers in wider words -/

variable {w' : ℕ}

/-- A register may be kept in a wider word. -/
theorem bitStep_setWidth (hw : 0 < w) (hle : w ≤ w') (c : BitVec w) :
    bitStep (poly.setWidth w') (c.setWidth w') = (bitStep poly c).setWidth w' := by
  have hbit : (c.setWidth w').getLsbD 0 = c.getLsbD 0 := by
    rw [BitVec.getLsbD_setWidth, decide_eq_true (Nat.lt_of_lt_of_le hw hle), Bool.true_and]
  have hshift : c.setWidth w' >>> 1 = (c >>> 1).setWidth w' := by
    apply BitVec.eq_of_getLsbD_eq
    intro i hi
    rw [BitVec.getLsbD_ushiftRight, BitVec.getLsbD_setWidth, BitVec.getLsbD_setWidth,
      BitVec.getLsbD_ushiftRight, decide_eq_true hi, Bool.true_and]
    by_cases hnext : 1 + i < w'
    · rw [decide_eq_true hnext, Bool.true_and]
    · rw [BitVec.getLsbD_of_ge c (1 + i) (by omega), Bool.and_false]
  unfold bitStep
  rw [hbit, hshift]
  split
  · rw [BitVec.setWidth_xor]
  · rfl

/-- So it may for any number of steps. -/
theorem bitSteps_setWidth (hw : 0 < w) (hle : w ≤ w') (n : ℕ) (c : BitVec w) :
    bitSteps (poly.setWidth w') n (c.setWidth w') = (bitSteps poly n c).setWidth w' := by
  induction n generalizing c with
  | zero => rfl
  | succ n ih => rw [bitSteps, bitSteps, bitStep_setWidth poly hw hle, ih]

/-- A register of at least a byte can be kept in a wider word. -/
theorem addByte_setWidth (hw : 8 ≤ w) (hle : w ≤ w') (c : BitVec w) (b : BitVec 8) :
    addByte (poly.setWidth w') (c.setWidth w') b = (addByte poly c b).setWidth w' := by
  have hbyte : b.setWidth w' = (b.setWidth w).setWidth w' := 
    (BitVec.setWidth_setWidth (by omega)).symm
  rw [addByte, hbyte, ← BitVec.setWidth_xor, bitSteps_setWidth poly (by omega) hle, addByte]

/-- So it may for a whole message. -/
theorem checksum_setWidth (hw : 8 ≤ w) (hle : w ≤ w') (c : BitVec w) (bytes : List (BitVec 8)) :
    checksum (poly.setWidth w') (c.setWidth w') bytes = (checksum poly c bytes).setWidth w' := by
  induction bytes generalizing c with
  | nil => rfl
  | cons b rest ih =>
    unfold checksum at ih ⊢
    rw [List.foldl_cons, List.foldl_cons, addByte_setWidth poly hw hle, ih]

end Library.Crc
