import Radapter.Config.Restore

/-!
# Numbers from scripts

Scripts have integers of 64 bits with a sign. A member of an integer type takes those that its type
can represent. The comparison that refuses the others is made in the wider of the two types, as C++
compares integers, so that an unsigned type of 64 bits takes every integer: a negative one becomes
the number with the same bits.
-/

namespace Radapter.Config

open Library

variable {qt : Qt}

/-- An unsigned type of 64 bits, in which every integer of a script is compared. -/
def IntegerType.Wraps (t : IntegerType) : Prop := t.signed = false ∧ t.width = 64

/-- The numbers of a type. -/
theorem toInt_range (t : IntegerType) (n : BitVec t.width) :
    (t.signed = true → -2 ^ (t.width - 1) ≤ t.toInt n ∧ t.toInt n < 2 ^ (t.width - 1)) ∧
      (t.signed = false → 0 ≤ t.toInt n ∧ t.toInt n < 2 ^ t.width) := by
  unfold IntegerType.toInt
  constructor
  · intro hsigned
    rw [if_pos hsigned]
    exact ⟨n.le_toInt, n.toInt_lt⟩
  · intro hsigned
    rw [if_neg (by simp [hsigned])]
    exact ⟨Int.natCast_nonneg _, by exact_mod_cast n.isLt⟩

/-- All types that do not wrap have only numbers that scripts have, too. -/
theorem toInt_bounds {t : IntegerType} (h : ¬ t.Wraps) (n : BitVec t.width) :
    -2 ^ 63 ≤ t.toInt n ∧ t.toInt n < 2 ^ 63 := by
  obtain ⟨hsigned, hunsigned⟩ := toInt_range t n
  cases t with
  | ulong | ulonglong => exact absurd ⟨rfl, rfl⟩ h
  | uchar | ushort | uint =>
    obtain ⟨hlow, hhigh⟩ := hunsigned rfl
    simp only [IntegerType.width] at hhigh
    omega
  | schar | short | int | long | longlong =>
    obtain ⟨hlow, hhigh⟩ := hsigned rfl
    simp only [IntegerType.width] at hlow hhigh
    omega

/-- An integer of a script is compared in 64 bits. -/
theorem equals_longlong {t : IntegerType} (v : BitVec t.width) (n : BitVec 64) :
    equals qt t v (.integer .longlong n) = true ↔ BitVec.ofInt 64 (t.toInt v) = n := by
  have hwidth : comparedWidth t .longlong = 64 := if_pos (.inr rfl)
  have hbits : BitVec.ofInt 64 (IntegerType.toInt .longlong n) = n := BitVec.ofInt_toInt
  change decide (BitVec.ofInt (comparedWidth t .longlong) (t.toInt v) =
    BitVec.ofInt (comparedWidth t .longlong) (IntegerType.toInt .longlong n)) = true ↔ _
  rw [decide_eq_true_eq, hwidth, hbits]

/-- The lower bits of the number are kept if what they stand for compares equal. -/
theorem parse_number_eq_ok {t : IntegerType}
    (hcan : qt.canConvert (.integer .longlong) (.integer t)) (n : BitVec 64)
    (out v : BitVec t.width) (frame : TraceFrame) :
    (number qt t).parse out (.integer .longlong n) frame = .ok v ↔
      v = .ofInt t.width n.toInt ∧ BitVec.ofInt 64 (t.toInt v) = n := by
  have hcheck : checkCanConvert qt (.integer t) (.integer .longlong n) frame = .ok () :=
    checkCanConvert_eq_ok.mpr hcan
  have hvalue : toInteger qt t (.integer .longlong n) = .ofInt t.width n.toInt := rfl
  simp only [number, hcheck]
  by_cases heq : equals qt t (toInteger qt t (.integer .longlong n)) (.integer .longlong n) = true
  · have hsame := (equals_longlong _ n).mp heq
    rw [hvalue] at hsame
    rw [if_pos heq, hvalue]
    exact ⟨fun h => Except.ok.inj h ▸ ⟨rfl, hsame⟩, fun h => congrArg Except.ok h.1.symm⟩
  · rw [if_neg heq]
    refine ⟨nofun, fun h => absurd ((equals_longlong _ n).mpr ?_) heq⟩
    rw [hvalue, ← h.1]
    exact h.2

/-- The number that an integer member takes from a script: the same, or in an unsigned type of 64
bits the one with the same bits. -/
theorem parse_number_iff {t : IntegerType}
    (hcan : qt.canConvert (.integer .longlong) (.integer t)) (n : BitVec 64)
    (out v : BitVec t.width) (frame : TraceFrame) :
    (number qt t).parse out (.integer .longlong n) frame = .ok v ↔
      t.toInt v = n.toInt ∨ t.Wraps ∧ t.toInt v = n.toNat := by
  have hbits : BitVec.ofInt 64 n.toInt = n := BitVec.ofInt_toInt
  have hnat : BitVec.ofInt 64 (n.toNat : ℤ) = n := by
    rw [BitVec.ofInt_natCast, BitVec.ofNat_toNat, BitVec.setWidth_eq]
  rw [parse_number_eq_ok hcan]
  constructor
  · rintro ⟨-, hsame⟩
    by_cases hwraps : t.Wraps
    · obtain ⟨hlow, hhigh⟩ := (toInt_range t v).2 hwraps.1
      rw [hwraps.2] at hhigh
      refine .inr ⟨hwraps, ?_⟩
      rw [← hsame, BitVec.toNat_ofInt, Int.toNat_of_nonneg (by omega)]
      omega
    · obtain ⟨hlow, hhigh⟩ := toInt_bounds hwraps v
      left
      rw [← hsame, BitVec.toInt_ofInt_eq_self (by decide) hlow hhigh]
  · rintro (hsame | ⟨hwraps, hsame⟩)
    · rw [← hsame, ofInt_toInt, hsame]
      exact ⟨rfl, hbits⟩
    · have hwide : ∀ w, w = 64 → BitVec.ofInt w (n.toNat : ℤ) = BitVec.ofInt w n.toInt := by
        rintro _ rfl
        rw [hnat, hbits]
      rw [hsame, ← hwide _ hwraps.2, ← hsame, ofInt_toInt]
      exact ⟨rfl, hsame ▸ hnat⟩

/-- A negative bitrate is taken for a huge one. -/
theorem parse_number_negative :
    (number Qt.plain .ulong).parse 0 (.integer .longlong (-1)) [] = .ok (-1) ↔
      IntegerType.toInt .ulong (-1) = (-1 : BitVec 64).toInt ∨
        IntegerType.ulong.Wraps ∧ IntegerType.toInt .ulong (-1) = (-1 : BitVec 64).toNat :=
  parse_number_iff rfl (-1) 0 (-1) []

end Radapter.Config
