import Radapter.UnflattenOrder
import Radapter.Unicode

/-!
# Reading the text of a path

The path of a leaf is written as the keys and the bracketed indices on the way to it, joined by
colons. This file says what `Unflatten` makes of such a text again: the parts are found as long
as no key is empty or has a colon, an index below `2 ^ 31` selects its item, and a key of another
form selects the entry under the text that `QString::fromUtf8` reads for it.
-/

namespace Radapter

/-- The text of a part. -/
def Selector.text : Selector → Bytes
  | .key q => toStdString q
  | .index i => indexName i

/-- A key of the form `[digits]`. -/
def IndexLike (k : QString) : Prop :=
  ∃ digits : List UInt16, digits ≠ [] ∧ (∀ d ∈ digits, 48 ≤ d.toNat ∧ d.toNat ≤ 57) ∧
    k = 91 :: digits ++ [93]

/-- A key that a path can name: valid Unicode, not empty, without a colon and not of the form of
an index. -/
structure PathKey (k : QString) : Prop where
  nonempty : k ≠ []
  valid : validUtf16 k = true
  noColon : 58 ∉ k
  notIndex : ¬ IndexLike k

/-! ## ASCII bytes of a text -/

/-- An ASCII byte in the UTF-8 form of a code point is all of it. -/
theorem mem_encodePoint_ascii {c : ℕ} {b : UInt8} (hc : IsScalar c) (hb : b ∈ encodePoint c)
    (hascii : b.toNat < 0x80) : c = b.toNat := by
  have hof {n : ℕ} (hn : 0x80 ≤ n) (hn' : n < 256) : b ≠ UInt8.ofNat n := by
    rintro rfl
    rw [UInt8.toNat_ofNat', Nat.mod_eq_of_lt hn'] at hascii
    omega
  unfold IsScalar at hc
  unfold encodePoint at hb
  split_ifs at hb with h1 h2 h3
  · rw [List.mem_singleton.mp hb, UInt8.toNat_ofNat', Nat.mod_eq_of_lt (by omega)]
  all_goals
    simp only [List.mem_cons, List.not_mem_nil, or_false] at hb
    exfalso
  · rcases hb with hb | hb
    · exact hof (by omega) (by omega) hb
    · exact hof (by omega) (by omega) hb
  · rcases hb with hb | hb | hb
    · exact hof (by omega) (by omega) hb
    · exact hof (by omega) (by omega) hb
    · exact hof (by omega) (by omega) hb
  · rcases hb with hb | hb | hb | hb
    · exact hof (by omega) (by omega) hb
    · exact hof (by omega) (by omega) hb
    · exact hof (by omega) (by omega) hb
    · exact hof (by omega) (by omega) hb

/-- The UTF-8 form of an ASCII character. -/
theorem encodePoint_ascii {b : UInt8} (h : b.toNat < 0x80) : encodePoint b.toNat = [b] := by
  rw [encodePoint, if_pos h, UInt8.ofNat_toNat]

/-- An ASCII byte in the UTF-8 form of a text is a character of it. -/
theorem mem_of_mem_toStdString {k : QString} (h : validUtf16 k = true) {b : UInt8}
    (hb : b ∈ toStdString k) (hascii : b.toNat < 0x80) : b.toUInt16 ∈ k := by
  obtain ⟨points, hpoints, rfl⟩ := exists_points h
  rw [toStdString_ofPoints hpoints] at hb
  obtain ⟨c, hc, hbc⟩ := List.mem_flatMap.mp hb
  have hcb := mem_encodePoint_ascii (hpoints c hc) hbc hascii
  subst hcb
  refine List.mem_flatMap.mpr ⟨b.toNat, hc, ?_⟩
  rw [utf16Point, if_pos (by omega), List.mem_singleton]
  exact UInt16.toNat_inj.mp (by simp)

/-- A text whose UTF-8 form is all ASCII has the same characters. -/
theorem eq_of_toStdString_ascii {k : QString} (h : validUtf16 k = true)
    (hascii : ∀ b ∈ toStdString k, b.toNat < 0x80) : k = (toStdString k).map UInt8.toUInt16 := by
  obtain ⟨points, hpoints, rfl⟩ := exists_points h
  rw [toStdString_ofPoints hpoints] at hascii ⊢
  clear h
  induction points with
  | nil => rfl
  | cons c points ih =>
    have hc := hpoints c (by simp)
    rw [List.flatMap_cons] at hascii
    obtain ⟨b, rest, hcode⟩ := List.exists_cons_of_ne_nil (encodePoint_ne_nil c)
    have hb : b.toNat < 0x80 := hascii b (by rw [hcode]; simp)
    have hcb := mem_encodePoint_ascii hc (by rw [hcode]; simp) hb
    subst hcb
    have htail := ih (fun c hc => hpoints c (List.mem_cons_of_mem _ hc))
      (fun b hb => hascii b (List.mem_append_right _ hb))
    have hhead : utf16Point b.toNat = [b.toUInt16] := by
      rw [utf16Point, if_pos (by omega)]
      exact congrArg (fun u => [u]) (UInt16.toNat_inj.mp (by simp))
    rw [ofPoints_cons, List.flatMap_cons, encodePoint_ascii hb, List.map_append, ← htail, hhead]
    rfl

/-! ## Indices -/

/-- Digits are read one part after the other. -/
private theorem tryDigits_append {xs : Bytes} {res mid : ℤ} (h : tryDigits xs res = some mid)
    (ys : Bytes) : tryDigits (xs ++ ys) res = tryDigits ys mid := by
  induction xs generalizing res with
  | nil =>
    cases h
    rfl
  | cons ch xs ih =>
    rw [tryDigits] at h
    split at h
    · next hdigit => rw [List.cons_append, tryDigits, if_pos hdigit, ih h]
    · cases h

/-- The last digit completes the number. -/
private theorem tryDigits_digit {q n : ℕ} (hn : n < 2 ^ 63) (hq : q = n / 10) :
    tryDigits [UInt8.ofNat (48 + n % 10)] (q : ℤ) = some (n : ℤ) := by
  have hvalue : (UInt8.ofNat (48 + n % 10)).toNat = 48 + n % 10 := by
    rw [UInt8.toNat_ofNat', Nat.mod_eq_of_lt (by omega)]
  have hdigit : (48 ≤ 48 + n % 10 && 48 + n % 10 ≤ 57) = true := by
    simp only [Bool.and_eq_true, decide_eq_true_eq]
    omega
  have hsum : (q : ℤ) * 10 + ((48 + n % 10 : ℕ) - 48) = n := by omega
  rw [tryDigits, hvalue, if_pos hdigit, hsum, Int.bmod_eq_of_le (by omega) (by omega), tryDigits]

/-- The digits of a number that fits a `long` are read back. -/
theorem tryDigits_decimal {n : ℕ} (hn : n < 2 ^ 63) : tryDigits (decimal n) 0 = some (n : ℤ) := by
  induction n using Nat.strongRecOn with
  | ind n ih =>
    by_cases hsmall : n < 10
    · rw [decimal_of_lt hsmall]
      exact tryDigits_digit (q := 0) hn (by omega)
    · rw [decimal_snoc (by omega), tryDigits_append (ih (n / 10) (by omega) (by omega))]
      exact tryDigits_digit hn rfl

/-- An index below `2 ^ 31` selects its item. -/
theorem selector_indexName {i : ℕ} (hi : i < 2 ^ 31) (rest : List Bytes) :
    selector (indexName i) rest = .index i := by
  have hlen : 1 ≤ (decimal i).length := decimal_length_pos i
  have hinner : ((indexName i).drop 1).dropLast = decimal i := by
    simp [indexName]
  have hint : tryInt (indexName i) = i := by
    rw [tryInt, if_neg, hinner, tryDigits_decimal (by omega), Option.getD_some]
    simp only [indexName, List.length_cons, List.length_append, List.length_nil, ne_eq, not_or,
      Nat.not_lt, Decidable.not_not]
    refine ⟨by omega, rfl, ?_⟩
    rw [List.cons_append, List.getLast?_cons, List.getLast?_concat]
    rfl
  rw [selector, hint, if_neg (by omega), Int.toNat_natCast]

/-! ## Keys -/

/-- Only digits are read as a number. -/
private theorem digits_of_tryDigits {bytes : Bytes} {res value : ℤ}
    (h : tryDigits bytes res = some value) : ∀ b ∈ bytes, 48 ≤ b.toNat ∧ b.toNat ≤ 57 := by
  induction bytes generalizing res with
  | nil => simp
  | cons ch bytes ih =>
    rw [tryDigits] at h
    split at h
    · next hdigit =>
      simp only [Bool.and_eq_true, decide_eq_true_eq] at hdigit
      intro b hb
      rcases List.mem_cons.mp hb with rfl | hb
      · exact hdigit
      · exact ih h b hb
    · cases h

/-- A part that names an index is a digit text in brackets. -/
theorem exists_digits_of_tryInt {part : Bytes} (h : tryInt part ≠ -1) :
    ∃ digits, digits ≠ [] ∧ (∀ b ∈ digits, 48 ≤ b.toNat ∧ b.toNat ≤ 57) ∧
      part = 91 :: digits ++ [93] := by
  unfold tryInt at h
  split at h
  · exact absurd rfl h
  · next hform =>
    simp only [not_or, Nat.not_lt, Decidable.not_not, ne_eq] at hform
    obtain ⟨hlen, hhead, hlast⟩ := hform
    obtain ⟨tail, rfl⟩ : ∃ tail, part = 91 :: tail := by
      cases part with
      | nil => cases hhead
      | cons b tail => exact ⟨tail, by rw [Option.some.inj hhead]⟩
    have htail : tail ≠ [] := by
      rintro rfl
      simp at hlen
    rw [List.getLast?_cons_of_ne_nil htail] at hlast
    obtain ⟨digits, rfl⟩ := List.getLast?_eq_some_iff.mp hlast
    have hinner : ((91 :: (digits ++ [93])).drop 1).dropLast = digits := by simp
    rw [hinner] at h
    refine ⟨digits, ?_, ?_, rfl⟩
    · rintro rfl
      simp at hlen
    · cases hdigits : tryDigits digits 0 with
      | none => simp [hdigits] at h
      | some value => exact digits_of_tryDigits hdigits

/-- The text of a key is read as a key. -/
theorem selector_toStdString {k : QString} (hk : PathKey k) (rest : List Bytes) :
    selector (toStdString k) rest = .key (partKey (toStdString k) rest) := by
  have hint : tryInt (toStdString k) = -1 := by
    by_contra hne
    obtain ⟨digits, hdigits, hrange, htext⟩ := exists_digits_of_tryInt hne
    apply hk.notIndex
    have hascii : ∀ b ∈ toStdString k, b.toNat < 0x80 := by
      intro b hb
      rw [htext] at hb
      simp only [List.cons_append, List.mem_cons, List.mem_append, List.not_mem_nil,
        or_false] at hb
      rcases hb with rfl | hb | rfl
      · decide
      · have := hrange b hb
        omega
      · decide
    refine ⟨digits.map UInt8.toUInt16, by simpa using hdigits, ?_, ?_⟩
    · intro d hd
      obtain ⟨b, hb, rfl⟩ := List.mem_map.mp hd
      simpa using hrange b hb
    · rw [eq_of_toStdString_ascii hk.valid hascii, htext]
      simp
  rw [selector, hint, if_pos (.inl (by decide))]

/-! ## Paths -/

/-- Every key on the path can be named. -/
def PathKeys (σ : List Selector) : Prop := ∀ k, .key k ∈ σ → PathKey k

/-- The text of a key that is not empty is not empty. -/
theorem toStdString_ne_nil {k : QString} (hk : PathKey k) : toStdString k ≠ [] := by
  obtain ⟨points, hpoints, rfl⟩ := exists_points hk.valid
  cases points with
  | nil => exact absurd rfl hk.nonempty
  | cons c points =>
    rw [toStdString_ofPoints hpoints]
    simp [encodePoint_ne_nil c]

/-- The text of a part is not empty and has no separator. -/
theorem Selector.text_wellFormed {σ : List Selector} (h : PathKeys σ) :
    ∀ s ∈ σ, s.text ≠ [] ∧ colon ∉ s.text := by
  intro s hs
  cases s with
  | key k =>
    have hk := h k hs
    refine ⟨toStdString_ne_nil hk, ?_⟩
    intro hcolon
    exact hk.noColon (mem_of_mem_toStdString hk.valid hcolon (by decide))
  | index i =>
    refine ⟨by simp [Selector.text, indexName], ?_⟩
    intro hcolon
    simp only [Selector.text, indexName, List.cons_append, List.mem_cons, List.mem_append,
      List.not_mem_nil, or_false] at hcolon
    rcases hcolon with hcolon | hcolon | hcolon
    · exact absurd hcolon (by decide)
    · exact absurd (decimal_digit hcolon) (by decide)
    · exact absurd hcolon (by decide)

/-- The parts of a path are found again in its text. -/
theorem walkParts_text {σ : List Selector} (hne : σ ≠ []) (h : PathKeys σ) :
    walkParts ([colon].intercalate (σ.map Selector.text)) = σ.map Selector.text := by
  have htext := Selector.text_wellFormed h
  have hsplit : ([colon].intercalate (σ.map Selector.text)).splitOn colon =
      σ.map Selector.text := by
    refine List.splitOn_intercalate colon ?_ (by simpa using hne)
    intro part hpart
    obtain ⟨s, hs, rfl⟩ := List.mem_map.mp hpart
    exact (htext s hs).2
  obtain ⟨s, rest, rfl⟩ := List.exists_cons_of_ne_nil hne
  obtain ⟨b, more, hb⟩ := List.exists_cons_of_ne_nil (htext s (by simp)).1
  obtain ⟨tail, htail⟩ : ∃ tail, [colon].intercalate ((s :: rest).map Selector.text) =
      b :: tail := by
    cases rest with
    | nil => exact ⟨more, by simp [hb]⟩
    | cons next rest =>
      refine ⟨more ++ ([colon] ++ [colon].intercalate ((next :: rest).map Selector.text)), ?_⟩
      rw [List.map_cons, List.map_cons, List.intercalate_cons_cons, hb]
      simp
  have hbc : b ≠ colon := by
    rintro rfl
    exact (htext s (by simp)).2 (by rw [hb]; simp)
  rw [walkParts, htail, if_neg (by simp), if_neg (by simpa using hbc), ← htail]
  exact hsplit

end Radapter
