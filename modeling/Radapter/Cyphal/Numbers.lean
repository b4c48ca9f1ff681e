import Radapter.Cyphal.Fields
import Mathlib.Algebra.Field.Rat
import Mathlib.Algebra.Order.Ring.Rat

/-!
# Numbers and their types

A message holds a number in one of eleven types, a struct in the type of its member. Between the
two stands `QVariant::value`, which never fails. A number is kept where the type of the member has
it; else another one is put in its place, and so it is with a value that is no number.
-/

namespace Radapter.Cyphal

/-- What a number of a message stands for. -/
inductive Number where
  | finite (q : ℚ)
  | infinite (negative : Bool)
  | nan
  deriving DecidableEq

/-- The number that a floating-point pattern stands for. -/
def Number.ofFloat : Float.Model.UnpackedFloat → Number
  | .infinity sign => .infinite (sign == .negative)
  | .notANumber => .nan
  | .zero _ => .finite 0
  | .finite .positive mantissa exponent _ => .finite (mantissa * 2 ^ exponent)
  | .finite .negative mantissa exponent _ => .finite (-(mantissa * 2 ^ exponent))

/-- The number that a value stands for. A boolean is no number. -/
def ScalarType.number : (t : ScalarType) → t.Value → Option Number
  | .bool, _ => none
  | .uint8_t, x => some (.finite x.toNat)
  | .uint16_t, x => some (.finite x.toNat)
  | .uint32_t, x => some (.finite x.toNat)
  | .uint64_t, x => some (.finite x.toNat)
  | .int8_t, x => some (.finite x.toInt)
  | .int16_t, x => some (.finite x.toInt)
  | .int32_t, x => some (.finite x.toInt)
  | .int64_t, x => some (.finite x.toInt)
  | .float, x => some (.ofFloat (.unpack .binary32 x))
  | .double, x => some (.ofFloat (.unpack .binary64 x))

/-- `std::is_floating_point_v`. -/
def ScalarType.isFloatingPoint : ScalarType → Bool
  | .float => true
  | .double => true
  | _ => false

/-- The number that a message holds. -/
def Variant.number : Variant → Option Number
  | .value t x => t.number x
  | _ => none

/-- Two scalars of messages are the same up to the types of numbers. -/
def Variant.SameScalar (v w : Variant) : Prop :=
  v = w ∨ ∃ n, v.number = some n ∧ w.number = some n

/-- `qint64` has the number, which `QVariant` rounds a floating-point number to on its way to an
integer type. -/
def Number.FitsQint64 : Number → Prop
  | .finite q => -2 ^ 63 ≤ q ∧ q < 2 ^ 63
  | _ => False

/-- The conversion from one type of numbers to another is by way of `qint64`, which does not have
the number. What comes out of it is not defined. -/
def Overflows (u t : ScalarType) (n : Number) : Prop :=
  u.isFloatingPoint = true ∧ t.isFloatingPoint = false ∧ ¬ n.FitsQint64

/-- What the conversions of Qt promise: a number that the other type has comes out as it is. -/
structure Platform.KeepsNumbers (platform : Platform) : Prop where
  value_number : ∀ {t u : ScalarType} {y : u.Value} {n : Number}, u.number y = some n →
    (∃ x, t.number x = some n) → ¬ Overflows u t n →
    t.number (platform.value t (.value u y)) = some n
  toUInt_number : ∀ {u : ScalarType} {y : u.Value} {k : UInt32},
    u.number y = some (.finite k.toNat) → platform.toUInt (.value u y) = some k

variable (platform : Platform)

/-- The scalar has the type of the member, or is a number that the type of the member has. A
number that overflows on its way must come out by chance. -/
def Variant.Fits (t : ScalarType) : Variant → Prop
  | .value u y =>
      u = t ∨ ∃ n, u.number y = some n ∧ (∃ x, t.number x = some n) ∧
        (Overflows u t n → t.number (platform.value t (.value u y)) = some n)
  | _ => False

variable {platform}

/-- A scalar is kept if it fits the member. -/
theorem sameScalar_valueAs_iff (hplatform : platform.KeepsNumbers) (t : ScalarType)
    (v : Variant) : v.SameScalar (.value t (v.valueAs platform t)) ↔ v.Fits platform t := by
  cases v with
  | value u y =>
    by_cases hu : u = t
    · subst hu
      rw [valueAs_value]
      exact iff_of_true (.inl rfl) (.inl rfl)
    · have hvalue : (Variant.value u y).valueAs platform t = platform.value t (.value u y) := by
        rw [Variant.valueAs, dif_neg hu]
      rw [hvalue]
      constructor
      · rintro (hsame | ⟨n, hn, hw⟩)
        · exact absurd (Variant.value.inj hsame).1 hu
        · exact .inr ⟨n, hn, ⟨_, hw⟩, fun _ => hw⟩
      · rintro (rfl | ⟨n, hn, hx, hchance⟩)
        · exact absurd rfl hu
        · right
          refine ⟨n, hn, ?_⟩
          by_cases hover : Overflows u t n
          · exact hchance hover
          · exact hplatform.value_number hn hx hover
  | invalid => exact iff_of_false (by simp [Variant.SameScalar, Variant.number]) id
  | string s => exact iff_of_false (by simp [Variant.SameScalar, Variant.number]) id
  | byteArray b => exact iff_of_false (by simp [Variant.SameScalar, Variant.number]) id
  | stringList items => exact iff_of_false (by simp [Variant.SameScalar, Variant.number]) id
  | list items => exact iff_of_false (by simp [Variant.SameScalar, Variant.number]) id
  | map entries => exact iff_of_false (by simp [Variant.SameScalar, Variant.number]) id

/-- `toUInt` gives a number that `unsigned int` has. -/
theorem asUInt_of_number (hplatform : platform.KeepsNumbers) {v : Variant} {k : UInt32}
    (hv : v.number = some (.finite k.toNat)) : v.asUInt platform = some k := by
  cases v with
  | value u y =>
    cases u with
    | uint32_t =>
      have hk : y.toNat = k.toNat := by
        have hq := Number.finite.inj (Option.some.inj hv)
        exact_mod_cast hq
      exact congrArg some (UInt32.toNat_inj.mp hk)
    | _ => exact hplatform.toUInt_number hv
  | _ => cases hv

end Radapter.Cyphal
