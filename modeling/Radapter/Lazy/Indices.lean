import Radapter.Lazy.Paths
import Radapter.UnflattenText
import Mathlib.Tactic.Ring

/-!
# The index a part names

A part of a path is an index when it is a text of decimal digits in brackets. `tryInt` multiplies
its way through the digits in a `long` and does not look for an overflow, so a number from
`2 ^ 63` on comes out as what is left of it modulo `2 ^ 64`. This file says for which parts that is
the index named, and for which paths `Unflatten`, `get` and `set` use the slots named.
-/

namespace Radapter

/-! ## What a part names -/

/-- The text has decimal digits only. -/
def AllDigits (digits : Bytes) : Prop := ∀ ch ∈ digits, IsDigit ch

instance : DecidablePred AllDigits := fun digits => List.decidableBAll IsDigit digits

/-- The part is a bracket, one or more decimal digits and a bracket, and `n` is their value. -/
def NamesIndex (part : Bytes) (n : ℕ) : Prop :=
  ∃ digits, digits ≠ [] ∧ AllDigits digits ∧ part = 91 :: digits ++ [93] ∧ digitsValue digits = n

/-- The index a part names, if it names one. -/
def namedIndex : Bytes → Option ℕ
  | [] => none
  | b :: tail =>
      if b = 91 ∧ tail.getLast? = some 93 ∧ tail.dropLast ≠ [] ∧ AllDigits tail.dropLast
      then some (digitsValue tail.dropLast)
      else none

/-- A part names one index at most, and `namedIndex` finds it. -/
theorem namedIndex_eq_some {part : Bytes} {n : ℕ} :
    namedIndex part = some n ↔ NamesIndex part n := by
  constructor
  · intro h
    cases part with
    | nil => cases h
    | cons b tail =>
      rw [namedIndex] at h
      split at h
      · next hform =>
        obtain ⟨rfl, hlast, hne, hdigits⟩ := hform
        obtain ⟨digits, rfl⟩ := List.getLast?_eq_some_iff.mp hlast
        rw [List.dropLast_concat] at h hne hdigits
        exact ⟨digits, hne, hdigits, rfl, Option.some.inj h⟩
      · cases h
  · rintro ⟨digits, hne, hdigits, rfl, rfl⟩
    rw [List.cons_append, namedIndex, List.dropLast_concat, List.getLast?_concat,
      if_pos ⟨rfl, rfl, hne, hdigits⟩]

/-! ## What `tryInt` returns -/

/-- One digit in the wrapping arithmetic of a `long`. -/
theorem bmod_digit (n d : ℤ) :
    ((n.bmod (2 ^ 64)) * 10 + d).bmod (2 ^ 64) = (n * 10 + d).bmod (2 ^ 64) := by
  rw [← Int.bmod_add_bmod, Int.bmod_mul_bmod, Int.bmod_add_bmod]

/-- The loop of `tryInt` keeps the value read so far, wrapped. -/
theorem tryDigits_eq {digits : Bytes} (h : ∀ ch ∈ digits, IsDigit ch) (n : ℕ) :
    tryDigits digits ((n : ℤ).bmod (2 ^ 64)) =
      some (((digits.foldl (fun n ch => n * 10 + (ch.toNat - 48)) n : ℕ) : ℤ).bmod (2 ^ 64)) := by
  induction digits generalizing n with
  | nil => rfl
  | cons ch digits ih =>
    obtain ⟨hlow, hhigh⟩ := h ch (by simp)
    have hdigit : ((ch.toNat : ℤ) - 48) = ((ch.toNat - 48 : ℕ) : ℤ) := by omega
    have hstep : (((n : ℤ).bmod (2 ^ 64)) * 10 + (ch.toNat - 48)).bmod (2 ^ 64) =
        ((n * 10 + (ch.toNat - 48) : ℕ) : ℤ).bmod (2 ^ 64) := by
      rw [bmod_digit, hdigit]
      norm_cast
    rw [tryDigits, if_pos (by simp [hlow, hhigh]), hstep, List.foldl_cons]
    exact ih (fun ch hch => h ch (List.mem_cons_of_mem _ hch)) _

/-- A part that names an index comes out as the index wrapped. -/
theorem tryInt_of_names {part : Bytes} {n : ℕ} (h : NamesIndex part n) :
    tryInt part = (n : ℤ).bmod (2 ^ 64) := by
  obtain ⟨digits, hne, hdigits, rfl, rfl⟩ := h
  have hlen := List.length_pos_of_ne_nil hne
  have hform : ¬ ((91 :: digits ++ [93]).length < 3 ∨ (91 :: digits ++ [93]).head? ≠ some 91 ∨
      (91 :: digits ++ [93]).getLast? ≠ some 93) := by
    simp only [List.cons_append, List.length_cons, List.length_append, List.length_nil,
      List.head?_cons, List.getLast?_cons, List.getLast?_concat, not_or, Nat.not_lt]
    exact ⟨by omega, by simp, by simp⟩
  have hinner : ((91 :: digits ++ [93]).drop 1).dropLast = digits := by simp
  have hread := tryDigits_eq hdigits 0
  rw [show ((0 : ℕ) : ℤ).bmod (2 ^ 64) = 0 by decide] at hread
  rw [tryInt, if_neg hform, hinner, hread, Option.getD_some, digitsValue]

/-- A part that names no index comes out as `-1`. -/
theorem tryInt_of_not_names {part : Bytes} (h : ∀ n, ¬ NamesIndex part n) : tryInt part = -1 := by
  by_contra hne
  obtain ⟨digits, hdigits, hrange, hpart⟩ := exists_digits_of_tryInt hne
  exact h _ ⟨digits, hdigits, hrange, hpart, rfl⟩

/-- The part names an index that no `long` holds, and what is left of it is below `bound`. -/
def WrapsBelow (bound : ℕ) (part : Bytes) : Prop :=
  ∃ n, NamesIndex part n ∧ 2 ^ 63 ≤ n ∧ n % 2 ^ 64 < bound

/-- A wrapped index. -/
theorem bmod_cases (n : ℕ) :
    (n % 2 ^ 64 < 2 ^ 63 ∧ (n : ℤ).bmod (2 ^ 64) = (n % 2 ^ 64 : ℕ)) ∨
      (2 ^ 63 ≤ n % 2 ^ 64 ∧ (n : ℤ).bmod (2 ^ 64) < 0) := by
  rw [Int.bmod_def]
  omega

/-- Below a bound `tryInt` returns the index named, unless a wrapped index is below the bound. -/
theorem tryInt_iff {bound : ℕ} (hbound : bound ≤ 2 ^ 63) (part : Bytes) :
    (∀ n < bound, tryInt part = n ↔ NamesIndex part n) ↔ ¬ WrapsBelow bound part := by
  constructor
  · rintro h ⟨v, hv, hlarge, hwrap⟩
    have hint := tryInt_of_names hv
    rcases bmod_cases v with ⟨-, hmod⟩ | ⟨hhigh, -⟩
    · have hsame := (h (v % 2 ^ 64) hwrap).mp (by rw [hint, hmod])
      have hv' := namedIndex_eq_some.mpr hv
      rw [namedIndex_eq_some.mpr hsame, Option.some.injEq] at hv'
      omega
    · omega
  · intro hwraps n hn
    constructor
    · intro hint
      have hnamed : ∃ v, NamesIndex part v := by
        by_contra hnone
        rw [tryInt_of_not_names (fun v hv => hnone ⟨v, hv⟩)] at hint
        omega
      obtain ⟨v, hv⟩ := hnamed
      rw [tryInt_of_names hv] at hint
      have hsmall : v < 2 ^ 63 := by
        by_contra hlarge
        refine hwraps ⟨v, hv, by omega, ?_⟩
        rcases bmod_cases v with ⟨-, hmod⟩ | ⟨-, hneg⟩ <;> omega
      have hvn : v = n := by
        rcases bmod_cases v with ⟨-, hmod⟩ | ⟨-, hneg⟩ <;> omega
      rwa [← hvn]
    · intro hv
      rw [tryInt_of_names hv]
      rcases bmod_cases n with ⟨-, hmod⟩ | ⟨hhigh, -⟩ <;> omega

/-- `tryInt` returns a `long`. -/
theorem tryInt_lt (part : Bytes) : tryInt part < 2 ^ 63 := by
  by_cases h : ∃ n, NamesIndex part n
  · obtain ⟨n, hn⟩ := h
    rw [tryInt_of_names hn]
    rcases bmod_cases n with ⟨hlow, hmod⟩ | ⟨-, hneg⟩ <;> omega
  · rw [tryInt_of_not_names (fun n hn => h ⟨n, hn⟩)]
    decide

/-- An index below a bound, out of a `long`. -/
def indexBelow (bound : ℕ) (i : ℤ) : Option ℕ :=
  if 0 ≤ i ∧ i < bound then some i.toNat else none

/-- An index below the bound is the number itself. -/
theorem indexBelow_eq_some {bound : ℕ} {i : ℤ} {n : ℕ} :
    indexBelow bound i = some n ↔ n < bound ∧ i = n := by
  unfold indexBelow
  split_ifs with h
  · rw [Option.some.injEq]
    omega
  · simp only [false_iff]
    omega

/-- The index below a bound that the code takes is the one the part names, unless a wrapped index
is below the bound. -/
theorem indexBelow_eq_iff {bound : ℕ} (hbound : bound ≤ 2 ^ 63) (part : Bytes) :
    indexBelow bound (tryInt part) = (namedIndex part).filter (· < bound) ↔
      ¬ WrapsBelow bound part := by
  rw [← tryInt_iff hbound]
  constructor
  · intro h n hn
    have hsome := congrArg (· = some n) h
    simpa [indexBelow_eq_some, hn, namedIndex_eq_some] using hsome
  · intro h
    ext n
    rw [indexBelow_eq_some, Option.filter_eq_some_iff,
      namedIndex_eq_some, decide_eq_true_eq]
    constructor
    · rintro ⟨hn, hint⟩
      exact ⟨(h n hn).mp hint, hn⟩
    · rintro ⟨hnamed, hn⟩
      exact ⟨hn, (h n hn).mpr hnamed⟩

/-! ## The slots of a path -/

/-- What a part selects by the index it names: indices that no `int` holds are keys. -/
def namedSelector (part : Bytes) (rest : List Bytes) : Selector :=
  match (namedIndex part).filter (· < 2 ^ 31) with
  | some n => .index n
  | none => .key (partKey part rest)

/-- What a path selects by the indices its parts name. -/
def namedSelectors : List Bytes → List Selector
  | [] => []
  | part :: rest => namedSelector part rest :: namedSelectors rest

/-- A value written where a path says; an empty path says nothing. -/
def writeEntry (value : QVariant) : List Selector → QVariant → QVariant
  | [], level => level
  | s :: rest, level => place value (s :: rest) level

/-- `Unflatten` of one entry writes where the code selects. -/
theorem Unflatten_singleton (path : Bytes) (value out : QVariant) :
    Unflatten out [(path, value)] = writeEntry value (selectors (walkParts path)) out := by
  rw [Unflatten, List.foldl_cons, List.foldl_nil]
  cases hparts : walkParts path with
  | nil => rfl
  | cons part rest => exact setPath_eq_place value (by simp) out

/-- The branch taken for a part is told by the index below `2 ^ 31`. -/
theorem selector_eq (part : Bytes) (rest : List Bytes) :
    selector part rest = match indexBelow (2 ^ 31) (tryInt part) with
      | some n => .index n
      | none => .key (partKey part rest) := by
  unfold selector indexBelow
  by_cases h : tryInt part < 0 ∨ 2 ^ 31 - 1 < tryInt part
  · rw [if_pos h, if_neg (by omega)]
  · rw [if_neg h, if_pos (by omega)]

/-- The branch taken for a part is the one for the index it names, unless a wrapped index selects
an item. -/
theorem selector_eq_iff (part : Bytes) (rest : List Bytes) :
    selector part rest = namedSelector part rest ↔ ¬ WrapsBelow (2 ^ 31) part := by
  rw [← indexBelow_eq_iff (by decide), selector_eq, namedSelector]
  cases indexBelow (2 ^ 31) (tryInt part) <;>
    cases (namedIndex part).filter (· < 2 ^ 31) <;> simp

/-- A whole path selects what its parts name, unless a wrapped index selects an item. -/
theorem selectors_eq_iff (parts : List Bytes) :
    selectors parts = namedSelectors parts ↔ ∀ part ∈ parts, ¬ WrapsBelow (2 ^ 31) part := by
  induction parts with
  | nil => simp [selectors, namedSelectors]
  | cons part rest ih =>
    rw [selectors, namedSelectors, List.cons.injEq, selector_eq_iff, ih, List.forall_mem_cons]

/-- Padding an empty list up to an item. -/
theorem updateItem_nil (f : QVariant → QVariant) (i : ℕ) :
    updateItem f i [] = List.replicate i .invalid ++ [f .invalid] := by
  induction i with
  | zero => rfl
  | succ i ih => rw [updateItem, ih, List.replicate_succ, List.cons_append]

/-- Different selectors put a value at different places of an empty message. -/
theorem place_injective {s : Scalar} {σ τ : List Selector}
    (h : place (.leaf s) σ .invalid = place (.leaf s) τ .invalid) : σ = τ := by
  induction σ generalizing τ with
  | nil =>
    rcases τ with _ | ⟨q | i, τ⟩
    · rfl
    · cases h
    · cases h
  | cons a σ ih =>
    rcases τ with _ | ⟨b, τ⟩
    · rcases a with q | i <;> cases h
    · rcases a with q | i <;> rcases b with r | j
      · have hentry : [(q, place (.leaf s) σ .invalid)] = [(r, place (.leaf s) τ .invalid)] :=
          QVariant.map.inj h
        simp only [List.cons.injEq, Prod.mk.injEq, and_true] at hentry
        rw [hentry.1, ih hentry.2]
      · cases h
      · cases h
      · have hitems := QVariant.list.inj h
        simp only [show itemsOf .invalid = [] from rfl, updateItem_nil] at hitems
        have hlen := congrArg List.length hitems
        simp only [List.length_append, List.length_replicate, List.length_singleton,
          Nat.add_right_cancel_iff] at hlen
        subst hlen
        rw [List.append_cancel_left_eq, List.singleton_inj] at hitems
        rw [ih hitems]

/-- Two paths that write every value alike have the same selectors. -/
theorem writeEntry_eq_iff {σ τ : List Selector} :
    (∀ value out, writeEntry value σ out = writeEntry value τ out) ↔ σ = τ := by
  constructor
  · intro h
    have hleaf := h (.leaf (.bool true)) .invalid
    rcases σ with _ | ⟨a, σ⟩ <;> rcases τ with _ | ⟨b, τ⟩
    · rfl
    · rcases b with q | i <;> cases hleaf
    · rcases a with q | i <;> cases hleaf
    · exact place_injective hleaf
  · rintro rfl value out
    rfl

namespace Lazy

open Lua

/-- The key that stands for a part by the index it names: indices that no `long` holds are
texts. -/
def namedKey (part : Bytes) : LuaKey :=
  match (namedIndex part).filter (· < 2 ^ 63) with
  | some n => .integer n
  | none => .string part

/-- The keys of a path by the indices its parts name. -/
def namedKeys (sep path : Bytes) : List LuaKey := (partsOf sep path).map namedKey

/-- The key pushed for a part is told by the index below `2 ^ 63`. -/
theorem PushPathPart_eq (part : Bytes) :
    PushPathPart part = match indexBelow (2 ^ 63) (tryInt part) with
      | some n => .integer n
      | none => .string part := by
  have hlt := tryInt_lt part
  unfold PushPathPart indexBelow
  by_cases h : tryInt part < 0
  · rw [if_pos h, if_neg (by omega)]
  · rw [if_neg h, if_pos (by omega)]
    simp only [LuaKey.integer.injEq]
    omega

/-- The key pushed for a part is the one for the index it names, unless a wrapped index comes out
as another. -/
theorem PushPathPart_eq_iff (part : Bytes) :
    PushPathPart part = namedKey part ↔ ¬ WrapsBelow (2 ^ 63) part := by
  rw [← indexBelow_eq_iff (by decide), PushPathPart_eq, namedKey]
  cases indexBelow (2 ^ 63) (tryInt part) <;>
    cases (namedIndex part).filter (· < 2 ^ 63) <;> simp

/-- A whole path is followed along the keys its parts name, unless a wrapped index comes out as
another. -/
theorem viewKeys_eq_iff (sep path : Bytes) :
    viewKeys sep path = namedKeys sep path ↔
      ∀ part ∈ partsOf sep path, ¬ WrapsBelow (2 ^ 63) part := by
  rw [viewKeys, namedKeys, List.map_inj_left]
  exact forall₂_congr (fun part _ => PushPathPart_eq_iff part)

/-- The keys of a path in a table by the indices its parts name. -/
def namedTableKeys (sep path : Bytes) : List LuaKey :=
  if sep <+: path then namedKeys sep (path.drop sep.length) else namedKeys sep path

/-- Without a wrapped index a table is followed along the keys named, too. -/
theorem tableKeys_eq {sep path : Bytes}
    (h : ∀ part ∈ partsOf sep path, ¬ WrapsBelow (2 ^ 63) part) :
    tableKeys sep path = namedTableKeys sep path := by
  unfold tableKeys namedTableKeys
  split
  · next hpre =>
    obtain ⟨rest, rfl⟩ := hpre
    rw [List.drop_left]
    refine (viewKeys_eq_iff sep rest).mpr fun part hpart => h part ?_
    by_cases hsep : sep = []
    · subst hsep
      exact hpart
    · rw [partsOf_append hsep]
      exact List.mem_cons_of_mem _ hpart
  · exact (viewKeys_eq_iff sep path).mpr h

/-- `tryInt` returns the index that a text names if a `long` holds it, and no other, exactly when
the text is no overflowing index with a wrapped value that is not negative. `Unflatten` writes an
entry to the slots its path names exactly when no wrapped index selects an item, and `get` and `set`
follow the keys their path names exactly when no wrapped index comes out as another. -/
theorem indices_named_iff (s path sep : Bytes) :
    ((∀ n : ℕ, tryInt s = n ↔ NamesIndex s n ∧ n < 2 ^ 63) ↔ ¬ WrapsBelow (2 ^ 63) s) ∧
      ((∀ value out, Unflatten out [(path, value)] =
          writeEntry value (namedSelectors (walkParts path)) out) ↔
        ∀ part ∈ walkParts path, ¬ WrapsBelow (2 ^ 31) part) ∧
      (viewKeys sep path = namedKeys sep path ∧ tableKeys sep path = namedTableKeys sep path ↔
        ∀ part ∈ partsOf sep path, ¬ WrapsBelow (2 ^ 63) part) := by
  refine ⟨?_, ?_, ?_⟩
  · rw [← tryInt_iff (Nat.le_refl _)]
    have hlt := tryInt_lt s
    refine forall_congr' fun n => ?_
    by_cases hn : n < 2 ^ 63
    · simp only [hn, and_true, forall_true_left]
    · have hne : tryInt s ≠ n := by omega
      simp only [hn, hne, and_false, false_imp_iff]
  · simp only [Unflatten_singleton, writeEntry_eq_iff, selectors_eq_iff]
  · rw [← viewKeys_eq_iff]
    refine ⟨And.left, fun h => ⟨h, tableKeys_eq ?_⟩⟩
    exact (viewKeys_eq_iff sep path).mp h

/-- The text `[18446744073709551617]`, a number one above `2 ^ 64`. -/
def overflowing : Bytes :=
  [91, 49, 56, 52, 52, 54, 55, 52, 52, 48, 55, 51, 55, 48, 57, 53, 53, 49, 54, 49, 55, 93]

/-- An index of twenty digits comes out as the index `1`, and `Unflatten`, `get` and `set` take the
slot `1` for it. -/
theorem overflowing_index :
    (tryInt overflowing = 1 ∧ ¬ NamesIndex overflowing 1) ∧
      Unflatten .invalid [(overflowing, .leaf (.bool true))] =
        .list [.invalid, .leaf (.bool true)] ∧
      tableKeys [58] overflowing = [.integer 1] := by
  refine ⟨⟨by decide +kernel, ?_⟩, by decide +kernel, by decide +kernel⟩
  rw [← namedIndex_eq_some]
  decide +kernel

end Lazy

end Radapter
