import Radapter.Text
import Mathlib.Data.Int.Notation

/-!
# Message values

Workers exchange `QVariant` trees: maps and lists nested to any depth over scalar leaves.
The walks over messages branch on the meta type alone (map, list, anything else), so the
scalars are one type of their own and a tree has three constructors.
-/

namespace Radapter

/-- The scalar meta types a message leaf or a register value can have. Floating-point values
are given by their IEEE 754 bit patterns; `invalid` is the null `QVariant`. -/
inductive Scalar where
  | invalid
  | bool (b : Bool)
  | int (n : BitVec 32)
  | uint (n : BitVec 32)
  | longlong (n : BitVec 64)
  | float (bits : BitVec 32)
  | double (bits : BitVec 64)
  | string (s : QString)
  | byteArray (b : Bytes)
  deriving DecidableEq, Repr

/-- `QVariant`: a scalar, a `QVariantList` or a `QVariantMap`. The entries of a map stand in
iteration order, which for `QMap` is strictly ascending in the keys (`QVariant.Ascending`). -/
inductive QVariant where
  | leaf (s : Scalar)
  | list (items : List QVariant)
  | map (entries : List (QString × QVariant))

/-- `FlatMap`: the entries of a flattened message, each a field path and the value there. -/
abbrev FlatMap := List (Bytes × QVariant)

namespace QVariant

/-- `QVariant{}`, the null value. -/
def invalid : QVariant := .leaf .invalid

/-- `QVariant::isValid`: everything but null. -/
def isValid : QVariant → Bool
  | .leaf .invalid => false
  | _ => true

/-- Only null is not valid. -/
@[simp] theorem isValid_iff {v : QVariant} : v.isValid = true ↔ v ≠ invalid := by
  cases v with
  | leaf s => cases s <;> simp [isValid, invalid]
  | list items => simp [isValid, invalid]
  | map entries => simp [isValid, invalid]

/-- A map or a list, the two meta types the walks descend into. -/
def isContainer : QVariant → Bool
  | .leaf _ => false
  | _ => true

mutual

/-- Equality of message trees is decidable. -/
def decEq : (a b : QVariant) → Decidable (a = b)
  | .leaf s, .leaf t => decidable_of_iff (s = t) (by simp)
  | .list l, .list m =>
      match decEqList l m with
      | isTrue h => isTrue (by rw [h])
      | isFalse h => isFalse (by simpa using h)
  | .map l, .map m =>
      match decEqMap l m with
      | isTrue h => isTrue (by rw [h])
      | isFalse h => isFalse (by simpa using h)
  | .leaf _, .list _ => isFalse (by simp)
  | .leaf _, .map _ => isFalse (by simp)
  | .list _, .leaf _ => isFalse (by simp)
  | .list _, .map _ => isFalse (by simp)
  | .map _, .leaf _ => isFalse (by simp)
  | .map _, .list _ => isFalse (by simp)

/-- Equality of the items of two lists. -/
def decEqList : (a b : List QVariant) → Decidable (a = b)
  | [], [] => isTrue rfl
  | [], _ :: _ => isFalse (by simp)
  | _ :: _, [] => isFalse (by simp)
  | x :: xs, y :: ys =>
      match decEq x y, decEqList xs ys with
      | isTrue hx, isTrue hxs => isTrue (by rw [hx, hxs])
      | isFalse hx, _ => isFalse (by simp [hx])
      | _, isFalse hxs => isFalse (by simp [hxs])

/-- Equality of the entries of two maps. -/
def decEqMap : (a b : List (QString × QVariant)) → Decidable (a = b)
  | [], [] => isTrue rfl
  | [], _ :: _ => isFalse (by simp)
  | _ :: _, [] => isFalse (by simp)
  | (k, x) :: xs, (l, y) :: ys =>
      if hk : k = l then
        match decEq x y, decEqMap xs ys with
        | isTrue hx, isTrue hxs => isTrue (by rw [hk, hx, hxs])
        | isFalse hx, _ => isFalse (by simp [hx])
        | _, isFalse hxs => isFalse (by simp [hxs])
      else isFalse (by simp [hk])

end

instance : DecidableEq QVariant := decEq

mutual

/-- Keys of every map in the tree are strictly ascending, as `QMap` keeps them. -/
def Ascending : QVariant → Prop
  | .leaf _ => True
  | .list items => AscendingList items
  | .map entries => (entries.map Prod.fst).Pairwise (· < ·) ∧ AscendingMap entries

/-- Every item of a list has ascending maps. -/
def AscendingList : List QVariant → Prop
  | [] => True
  | v :: rest => Ascending v ∧ AscendingList rest

/-- Every value of a map has ascending maps. -/
def AscendingMap : List (QString × QVariant) → Prop
  | [] => True
  | (_, v) :: rest => Ascending v ∧ AscendingMap rest

end

/-- Induction over a tree: what holds of a container follows from what holds of its items or
values. -/
@[elab_as_elim]
theorem memInduction {motive : QVariant → Prop} (leaf : ∀ s, motive (.leaf s))
    (list : ∀ items, (∀ v ∈ items, motive v) → motive (.list items))
    (map : ∀ entries : List (QString × QVariant), (∀ e ∈ entries, motive e.2) →
      motive (.map entries)) (v : QVariant) : motive v := by
  cases v with
  | leaf s => exact leaf s
  | list items =>
    refine list items fun v hv => ?_
    have hsize := List.sizeOf_lt_of_mem hv
    exact memInduction leaf list map v
  | map entries =>
    refine map entries fun e he => ?_
    have hsize := List.sizeOf_lt_of_mem he
    exact memInduction leaf list map e.2
termination_by sizeOf v
decreasing_by
  · simp_wf
    omega
  · have hpair : sizeOf e.2 < sizeOf e := by
      cases e
      simp only [Prod.mk.sizeOf_spec]
      omega
    simp_wf
    omega

/-- A list is in order if each item is. -/
theorem ascendingList_iff {items : List QVariant} :
    AscendingList items ↔ ∀ v ∈ items, v.Ascending := by
  induction items with
  | nil => simp [AscendingList]
  | cons v rest ih => simp [AscendingList, ih]

/-- Below a map all is in order if each value is. -/
theorem ascendingMap_iff {entries : List (QString × QVariant)} :
    AscendingMap entries ↔ ∀ e ∈ entries, e.2.Ascending := by
  induction entries with
  | nil => simp [AscendingMap]
  | cons e rest ih => simp [AscendingMap, ih]

end QVariant

/-- A key stands for one entry. -/
theorem entry_unique {entries : List (QString × QVariant)}
    (hkeys : (entries.map Prod.fst).Pairwise (· < ·)) {e e' : QString × QVariant}
    (he : e ∈ entries) (he' : e' ∈ entries) (h : e.1 = e'.1) : e = e' := by
  induction entries with
  | nil => cases he
  | cons first rest ih =>
    obtain ⟨hfirst, hrest⟩ := List.pairwise_cons.mp hkeys
    rcases List.mem_cons.mp he with rfl | hmem <;> rcases List.mem_cons.mp he' with rfl | hmem'
    · rfl
    · exact absurd (hfirst e'.1 (List.mem_map_of_mem hmem')) (h ▸ List.lt_irrefl _)
    · exact absurd (hfirst e.1 (List.mem_map_of_mem hmem)) (h ▸ List.lt_irrefl _)
    · exact ih hrest hmem hmem'

/-- The part of Qt's scalar conversions that parses text or rounds floating-point numbers.
The program relies on Qt for it, so it is a parameter of every definition that converts. -/
structure Conversions where
  /-- `QVariant::toBool` of a text. -/
  textToBool : QString → Bool
  /-- `QVariant::toUInt` of a text, `none` when the conversion reports failure. -/
  textToUInt : QString → Option (BitVec 32)
  /-- `QVariant::toUInt` of a `double`. -/
  doubleToUInt : BitVec 64 → Option (BitVec 32)
  /-- `QVariant::toUInt` of a `float`. -/
  floatToUInt : BitVec 32 → Option (BitVec 32)
  /-- `QVariant::toFloat` of a text. -/
  textToFloat : QString → Option (BitVec 32)
  /-- `QVariant::toFloat` of an integer. -/
  intToFloat : ℤ → BitVec 32
  /-- `QVariant::toFloat` of a `double`. -/
  doubleToFloat : BitVec 64 → BitVec 32
  /-- The comparison of a `float` with a 32-bit integer. -/
  floatEqualsInt : BitVec 32 → ℤ → Bool

/-- Conversions for runs that convert no text and no floating-point number. -/
def integersOnly : Conversions where
  textToBool := fun _ => false
  textToUInt := fun _ => none
  doubleToUInt := fun _ => none
  floatToUInt := fun _ => none
  textToFloat := fun _ => none
  intToFloat := fun _ => 0
  doubleToFloat := fun _ => 0
  floatEqualsInt := fun _ _ => false

namespace Scalar

/-- `QVariant::toBool`. -/
def toBool (qt : Conversions) : Scalar → Bool
  | .invalid => false
  | .bool b => b
  | .int n => n != 0
  | .uint n => n != 0
  | .longlong n => n != 0
  | .float bits => bits.setWidth 31 != 0
  | .double bits => bits.setWidth 63 != 0
  | .string s => qt.textToBool s
  | .byteArray b => qt.textToBool (fromUtf8 b)

/-- `QVariant::toUInt(&ok)`: integers are reduced modulo `2 ^ 32` and reported as converted. -/
def toUInt (qt : Conversions) : Scalar → Option (BitVec 32)
  | .invalid => none
  | .bool b => some (if b then 1 else 0)
  | .int n => some n
  | .uint n => some n
  | .longlong n => some (n.setWidth 32)
  | .float bits => qt.floatToUInt bits
  | .double bits => qt.doubleToUInt bits
  | .string s => qt.textToUInt s
  | .byteArray b => qt.textToUInt (fromUtf8 b)

/-- `QVariant::toFloat(&ok)`, the result as its bit pattern. -/
def toFloat (qt : Conversions) : Scalar → Option (BitVec 32)
  | .invalid => none
  | .bool b => some (qt.intToFloat (if b then 1 else 0))
  | .int n => some (qt.intToFloat n.toInt)
  | .uint n => some (qt.intToFloat n.toNat)
  | .longlong n => some (qt.intToFloat n.toInt)
  | .float bits => some bits
  | .double bits => some (qt.doubleToFloat bits)
  | .string s => qt.textToFloat s
  | .byteArray b => qt.textToFloat (fromUtf8 b)

/-- IEEE equality of two `float` patterns: a NaN equals nothing, the two zeros are equal. -/
def floatEq (a b : BitVec 32) : Bool :=
  !(0x7F800000#31).ult (a.setWidth 31) && !(0x7F800000#31).ult (b.setWidth 31) &&
    (a == b || (a.setWidth 31 == 0 && b.setWidth 31 == 0))

/-- A pattern whose exponent is all ones and whose fraction is not zero. -/
def isNaN : Scalar → Bool
  | .float bits => (0x7F800000#31).ult (bits.setWidth 31)
  | .double bits => (0x7FF0000000000000#63).ult (bits.setWidth 63)
  | _ => false

/-- The integer types a register value can have: the pattern and the number it stands for. -/
def wordBits : Scalar → Option (BitVec 32 × ℤ)
  | .bool b => some (if b then (1, 1) else (0, 0))
  | .int n => some (n, n.toInt)
  | .uint n => some (n, n.toNat)
  | _ => none

/-- `QVariant::operator==` between null and the values registers have. Numbers of two types are
compared after the usual promotion, so two 32-bit integers by their patterns. -/
def equals (qt : Conversions) : Scalar → Scalar → Bool
  | .float a, .float b => floatEq a b
  | .float a, b => (b.wordBits.map (fun n => qt.floatEqualsInt a n.2)).getD false
  | a, .float b => (a.wordBits.map (fun n => qt.floatEqualsInt b n.2)).getD false
  | a, b =>
      match a.wordBits, b.wordBits with
      | some m, some n => m.1 == n.1
      | _, _ => a == b

/-- The comparison of floats is symmetric. -/
theorem floatEq_comm (a b : BitVec 32) : floatEq a b = floatEq b a := by
  unfold floatEq
  rw [BEq.comm (a := a), Bool.and_comm (!_) (!_), Bool.and_comm (a.setWidth 31 == 0)]

/-- So is that of scalars. -/
theorem equals_comm (qt : Conversions) (v w : Scalar) : v.equals qt w = w.equals qt v := by
  cases v with
  | float a =>
    cases w with
    | float b => exact floatEq_comm a b
    | _ => rfl
  | _ =>
    cases w with
    | float b => rfl
    | _ => simp only [equals, wordBits, Bool.beq_comm]

/-- Null equals no other value. -/
theorem invalid_equals (qt : Conversions) {v : Scalar} (h : v ≠ .invalid) :
    Scalar.invalid.equals qt v = false := by
  cases v with
  | invalid => exact absurd rfl h
  | _ => rfl

end Scalar

end Radapter
