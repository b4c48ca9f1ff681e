import Radapter.Text

/-!
# Valid Unicode text

A `QString` is valid when its surrogates come in pairs: it is then the UTF-16 form of a sequence
of scalar values. Writing such a text as UTF-8 and reading it back gives the text again, except
that a byte-order mark at the front is skipped. Conversely, bytes that are read without a
replacement are the UTF-8 form of what was read.
-/

namespace Radapter

/-- A Unicode scalar value: a code point that is not a surrogate. -/
def IsScalar (c : ℕ) : Prop := c < 0xD800 ∨ 0xE000 ≤ c ∧ c ≤ 0x10FFFF

instance (c : ℕ) : Decidable (IsScalar c) := inferInstanceAs (Decidable (_ ∨ _))

/-- Every surrogate of the text is part of a pair. -/
def validUtf16 : QString → Bool
  | [] => true
  | [u] => !(isHighSurrogate u || isLowSurrogate u)
  | u :: v :: rest =>
      if isHighSurrogate u && isLowSurrogate v then validUtf16 rest
      else !(isHighSurrogate u || isLowSurrogate u) && validUtf16 (v :: rest)

/-! ## One code point -/

/-- A number below 256 is kept in a byte. -/
private theorem toNat_ofNat8 {n : ℕ} (h : n < 256) : (UInt8.ofNat n).toNat = n := by
  rw [UInt8.toNat_ofNat', Nat.mod_eq_of_lt h]

/-- A number below 65536 is kept in a unit. -/
private theorem toNat_ofNat16 {n : ℕ} (h : n < 65536) : (UInt16.ofNat n).toNat = n := by
  rw [UInt16.toNat_ofNat', Nat.mod_eq_of_lt h]

/-- The UTF-8 form of a code point is not empty. -/
theorem encodePoint_ne_nil (c : ℕ) : encodePoint c ≠ [] := by
  unfold encodePoint
  split_ifs <;> simp

/-- A continuation byte adds six bits. -/
theorem continuation_ofNat {acc n : ℕ} (hn : n < 64) (rest : Bytes) :
    continuation acc (UInt8.ofNat (0x80 + n) :: rest) = continuation (acc * 64 + n) rest := by
  have hb := toNat_ofNat8 (show 0x80 + n < 256 by omega)
  have hrange : (0x80 ≤ 0x80 + n && 0x80 + n < 0xC0) = true := by
    simp only [Bool.and_eq_true, decide_eq_true_eq]
    omega
  rw [continuation, hb, if_pos hrange, Nat.add_sub_cancel_left]

/-- A whole sequence that stands for an allowed code point is read. -/
theorem decodePoint_cons {b : UInt8} {tail rest : Bytes} {least bits c : ℕ}
    (hhead : sequenceHead b.toNat = some (tail.length + 1, least, bits))
    (htail : continuation bits tail = some c) (hleast : least ≤ c) (hc : IsScalar c) :
    decodePoint (b :: (tail ++ rest)) = some (c, tail.length + 1) := by
  have hrefused : ¬ (c < least ∨ (0xD800 ≤ c ∧ c < 0xE000) ∨ 0x10FFFF < c) := by
    unfold IsScalar at hc
    omega
  have hlen : ¬ (tail ++ rest).length + 1 < tail.length + 1 := by
    rw [List.length_append]
    omega
  have htake : (tail ++ rest).take (tail.length + 1 - 1) = tail := by simp
  simp only [decodePoint, hhead, Option.bind_eq_bind, Option.bind_some, if_neg hlen, htake, htail,
    if_neg hrefused]

/-- Reading the UTF-8 form of a scalar value. -/
theorem decodePoint_encodePoint {c : ℕ} (hc : IsScalar c) (rest : Bytes) :
    decodePoint (encodePoint c ++ rest) = some (c, (encodePoint c).length) := by
  have hbound : c < 0x110000 := by
    unfold IsScalar at hc
    omega
  unfold encodePoint
  split_ifs with h1 h2 h3
  · refine @decodePoint_cons _ [] rest 0 c c ?_ rfl (by omega) hc
    rw [toNat_ofNat8 (by omega), sequenceHead, if_pos h1]
    rfl
  · refine @decodePoint_cons _ [_] rest 0x80 (c / 64) c ?_ ?_ (by omega) hc
    · rw [toNat_ofNat8 (by omega), sequenceHead, if_neg (by omega), if_neg (by omega),
        if_pos (by omega), Nat.add_sub_cancel_left]
      rfl
    · rw [continuation_ofNat (by omega), continuation]
      congr 1
      omega
  · refine @decodePoint_cons _ [_, _] rest 0x800 (c / 4096) c ?_ ?_ (by omega) hc
    · rw [toNat_ofNat8 (by omega), sequenceHead, if_neg (by omega), if_neg (by omega),
        if_neg (by omega), if_pos (by omega), Nat.add_sub_cancel_left]
      rfl
    · rw [continuation_ofNat (by omega), continuation_ofNat (by omega), continuation]
      congr 1
      omega
  · refine @decodePoint_cons _ [_, _, _] rest 0x10000 (c / 262144) c ?_ ?_ (by omega) hc
    · rw [toNat_ofNat8 (by omega), sequenceHead, if_neg (by omega), if_neg (by omega),
        if_neg (by omega), if_neg (by omega), if_pos (by omega), Nat.add_sub_cancel_left]
      rfl
    · rw [continuation_ofNat (by omega), continuation_ofNat (by omega),
        continuation_ofNat (by omega), continuation]
      congr 1
      omega

/-- What a run of continuation bytes adds to the bits read so far. -/
theorem continuation_eq_some {acc c : ℕ} {tail : Bytes} (h : continuation acc tail = some c) :
    (∀ b ∈ tail, 0x80 ≤ b.toNat ∧ b.toNat < 0xC0) ∧
      c = tail.foldl (fun acc b => acc * 64 + (b.toNat - 0x80)) acc := by
  induction tail generalizing acc with
  | nil => exact ⟨by simp, (Option.some.inj h).symm⟩
  | cons b tail ih =>
    rw [continuation] at h
    split at h
    · next hb =>
      simp only [Bool.and_eq_true, decide_eq_true_eq] at hb
      obtain ⟨hall, hc⟩ := ih h
      refine ⟨?_, by rw [hc, List.foldl_cons]⟩
      intro b' hb'
      rcases List.mem_cons.mp hb' with rfl | hb'
      · exact hb
      · exact hall b' hb'
    · cases h

/-- A byte is given by its number. -/
private theorem ofNat8_eq {n : ℕ} {b : UInt8} (h : n = b.toNat) : UInt8.ofNat n = b := by
  rw [h, UInt8.ofNat_toNat]

/-- The parts of a sequence that was read. -/
theorem decodePoint_eq_some {bytes : Bytes} {c len : ℕ} (h : decodePoint bytes = some (c, len)) :
    ∃ b tail rest least bits, bytes = b :: (tail ++ rest) ∧ len = tail.length + 1 ∧
      sequenceHead b.toNat = some (len, least, bits) ∧ continuation bits tail = some c ∧
      least ≤ c ∧ IsScalar c := by
  cases bytes with
  | nil => cases h
  | cons b more =>
    simp only [decodePoint, Option.bind_eq_bind] at h
    obtain ⟨⟨size, least, bits⟩, hhead, h⟩ := Option.bind_eq_some_iff.mp h
    simp only at h
    split at h
    · cases h
    · next hsize =>
      obtain ⟨point, hcont, h⟩ := Option.bind_eq_some_iff.mp h
      split at h
      · cases h
      · next hpoint =>
        obtain ⟨rfl, rfl⟩ : point = c ∧ size = len := by simpa using h
        have hpos : 0 < size := by
          unfold sequenceHead at hhead
          split_ifs at hhead <;> simp_all <;> omega
        refine ⟨b, more.take (size - 1), more.drop (size - 1), least, bits, ?_, ?_, hhead, hcont,
          by omega, ?_⟩
        · rw [List.take_append_drop]
        · rw [List.length_take]
          omega
        · unfold IsScalar
          omega

/-- A code point that was read is a scalar value, and its UTF-8 form is what was read. -/
theorem encodePoint_of_decodePoint {bytes : Bytes} {c len : ℕ}
    (h : decodePoint bytes = some (c, len)) :
    IsScalar c ∧ ∃ rest, bytes = encodePoint c ++ rest ∧ len = (encodePoint c).length := by
  obtain ⟨b, tail, rest, least, bits, rfl, hlen, hhead, hcont, hleast, hc⟩ := decodePoint_eq_some h
  refine ⟨hc, rest, ?_⟩
  suffices hcode : encodePoint c = b :: tail by
    rw [hcode]
    exact ⟨rfl, hlen⟩
  obtain ⟨hrange, hfold⟩ := continuation_eq_some hcont
  unfold IsScalar at hc
  unfold sequenceHead at hhead
  split_ifs at hhead with h1 h2 h3 h4 h5
  · obtain ⟨rfl, rfl, rfl⟩ : 1 = len ∧ 0 = least ∧ b.toNat = bits := by simpa using hhead
    obtain rfl : tail = [] := List.length_eq_zero_iff.mp (by omega)
    obtain rfl : c = b.toNat := hfold
    rw [encodePoint, if_pos h1, ofNat8_eq rfl]
  · obtain ⟨rfl, rfl, rfl⟩ : 2 = len ∧ 0x80 = least ∧ b.toNat - 0xC0 = bits := by
      simpa using hhead
    obtain ⟨b1, rfl⟩ : ∃ b1, tail = [b1] := List.length_eq_one_iff.mp (by omega)
    have hb1 := hrange b1 (by simp)
    simp only [List.foldl_cons, List.foldl_nil] at hfold
    rw [encodePoint, if_neg (by omega), if_pos (by omega), ofNat8_eq (b := b) (by omega),
      ofNat8_eq (b := b1) (by omega)]
  · obtain ⟨rfl, rfl, rfl⟩ : 3 = len ∧ 0x800 = least ∧ b.toNat - 0xE0 = bits := by
      simpa using hhead
    obtain ⟨b1, b2, rfl⟩ : ∃ b1 b2, tail = [b1, b2] := List.length_eq_two.mp (by omega)
    have hb1 := hrange b1 (by simp)
    have hb2 := hrange b2 (by simp)
    simp only [List.foldl_cons, List.foldl_nil] at hfold
    rw [encodePoint, if_neg (by omega), if_neg (by omega), if_pos (by omega),
      ofNat8_eq (b := b) (by omega), ofNat8_eq (b := b1) (by omega),
      ofNat8_eq (b := b2) (by omega)]
  · obtain ⟨rfl, rfl, rfl⟩ : 4 = len ∧ 0x10000 = least ∧ b.toNat - 0xF0 = bits := by
      simpa using hhead
    obtain ⟨b1, b2, b3, rfl⟩ : ∃ b1 b2 b3, tail = [b1, b2, b3] :=
      List.length_eq_three.mp (by omega)
    have hb1 := hrange b1 (by simp)
    have hb2 := hrange b2 (by simp)
    have hb3 := hrange b3 (by simp)
    simp only [List.foldl_cons, List.foldl_nil] at hfold
    rw [encodePoint, if_neg (by omega), if_neg (by omega), if_neg (by omega),
      ofNat8_eq (b := b) (by omega), ofNat8_eq (b := b1) (by omega),
      ofNat8_eq (b := b2) (by omega), ofNat8_eq (b := b3) (by omega)]

/-- So is a unit. -/
private theorem ofNat16_eq {n : ℕ} {u : UInt16} (h : n = u.toNat) : UInt16.ofNat n = u := by
  rw [h, UInt16.ofNat_toNat]

/-! ## Whole texts -/

/-- The text of a sequence of scalar values. -/
def ofPoints (points : List ℕ) : QString := points.flatMap utf16Point

/-- No code points are the empty text. -/
@[simp] theorem ofPoints_nil : ofPoints [] = [] := rfl

/-- The first code point stands in front. -/
@[simp] theorem ofPoints_cons (c : ℕ) (points : List ℕ) :
    ofPoints (c :: points) = utf16Point c ++ ofPoints points := rfl

/-- A code point beyond 16 bits is a pair that gives it back. -/
private theorem utf16Point_surrogates {c : ℕ} (h : 0x10000 ≤ c) (hc : c ≤ 0x10FFFF) :
    ∃ hi lo, utf16Point c = [hi, lo] ∧ isHighSurrogate hi = true ∧ isLowSurrogate lo = true ∧
      surrogatePoint hi lo = c := by
  have hhi := toNat_ofNat16 (show 0xD800 + (c - 0x10000) / 0x400 < 65536 by omega)
  have hlo := toNat_ofNat16 (show 0xDC00 + (c - 0x10000) % 0x400 < 65536 by omega)
  refine ⟨UInt16.ofNat (0xD800 + (c - 0x10000) / 0x400),
    UInt16.ofNat (0xDC00 + (c - 0x10000) % 0x400), ?_, ?_, ?_, ?_⟩
  · rw [utf16Point, if_neg (by omega)]
  · simp only [isHighSurrogate, hhi, Bool.and_eq_true, decide_eq_true_eq]
    omega
  · simp only [isLowSurrogate, hlo, Bool.and_eq_true, decide_eq_true_eq]
    omega
  · unfold surrogatePoint
    omega

/-- Any other scalar value is one unit and no half of a pair. -/
private theorem utf16Point_small {c : ℕ} (hc : IsScalar c) (h : c < 0x10000) :
    utf16Point c = [UInt16.ofNat c] ∧ (UInt16.ofNat c).toNat = c ∧
      isHighSurrogate (UInt16.ofNat c) = false ∧ isLowSurrogate (UInt16.ofNat c) = false := by
  unfold IsScalar at hc
  have hu := toNat_ofNat16 (show c < 65536 by omega)
  refine ⟨?_, hu, ?_, ?_⟩
  · rw [utf16Point, if_pos h]
  · simp only [isHighSurrogate, hu, Bool.and_eq_false_iff, decide_eq_false_iff_not]
    omega
  · simp only [isLowSurrogate, hu, Bool.and_eq_false_iff, decide_eq_false_iff_not]
    omega

/-- The UTF-8 form of a text that starts with a scalar value. -/
theorem toStdString_utf16Point {c : ℕ} (hc : IsScalar c) (rest : QString) :
    toStdString (utf16Point c ++ rest) = encodePoint c ++ toStdString rest := by
  by_cases hsmall : c < 0x10000
  · obtain ⟨hunits, hu, hhigh, hlow⟩ := utf16Point_small hc hsmall
    have hunit : encodeUnit (UInt16.ofNat c) = encodePoint c := by
      rw [encodeUnit, hhigh, hlow, hu]
      rfl
    rw [hunits, List.singleton_append]
    cases rest with
    | nil => simp only [toStdString, hunit, List.append_nil]
    | cons v rest => rw [toStdString, hhigh, hunit, Bool.false_and, if_neg Bool.false_ne_true]
  · unfold IsScalar at hc
    obtain ⟨hi, lo, hpair, hhigh, hlow, hpoint⟩ :=
      utf16Point_surrogates (show 0x10000 ≤ c by omega) (by omega)
    rw [hpair, List.cons_append, List.singleton_append, toStdString, hhigh, hlow, hpoint]
    rfl

/-- A scalar value in front of a text does not matter for its validity. -/
theorem validUtf16_utf16Point {c : ℕ} (hc : IsScalar c) (rest : QString) :
    validUtf16 (utf16Point c ++ rest) = validUtf16 rest := by
  by_cases hsmall : c < 0x10000
  · obtain ⟨hunits, hu, hhigh, hlow⟩ := utf16Point_small hc hsmall
    rw [hunits, List.singleton_append]
    cases rest with
    | nil => simp [validUtf16, hhigh, hlow]
    | cons v rest => simp [validUtf16, hhigh, hlow]
  · unfold IsScalar at hc
    obtain ⟨hi, lo, hpair, hhigh, hlow, -⟩ :=
      utf16Point_surrogates (show 0x10000 ≤ c by omega) (by omega)
    rw [hpair, List.cons_append, List.singleton_append, validUtf16, hhigh, hlow]
    rfl

/-- The text of a sequence of scalar values is valid. -/
theorem validUtf16_ofPoints {points : List ℕ} (h : ∀ c ∈ points, IsScalar c) :
    validUtf16 (ofPoints points) = true := by
  induction points with
  | nil => rfl
  | cons c points ih =>
    rw [ofPoints_cons, validUtf16_utf16Point (h c (by simp)),
      ih (fun c hc => h c (List.mem_cons_of_mem _ hc))]

/-- The UTF-8 form of a sequence of scalar values. -/
theorem toStdString_ofPoints {points : List ℕ} (h : ∀ c ∈ points, IsScalar c) :
    toStdString (ofPoints points) = points.flatMap encodePoint := by
  induction points with
  | nil => rfl
  | cons c points ih =>
    rw [ofPoints_cons, toStdString_utf16Point (h c (by simp)), List.flatMap_cons,
      ih (fun c hc => h c (List.mem_cons_of_mem _ hc))]

/-- The decoding loop takes one round for each scalar value. -/
theorem fromUtf8Loop_append {points : List ℕ} (h : ∀ c ∈ points, IsScalar c) (fuel : ℕ)
    (rest : Bytes) : fromUtf8Loop (fuel + points.length) (points.flatMap encodePoint ++ rest) =
      ofPoints points ++ fromUtf8Loop fuel rest := by
  induction points with
  | nil => rfl
  | cons c points ih =>
    have hread := decodePoint_encodePoint (h c (by simp)) (points.flatMap encodePoint ++ rest)
    have hdrop := @List.drop_left _ (encodePoint c) (points.flatMap encodePoint ++ rest)
    obtain ⟨b, more, hcons⟩ := List.exists_cons_of_ne_nil
      (show encodePoint c ++ (points.flatMap encodePoint ++ rest) ≠ [] by
        simp [encodePoint_ne_nil c])
    rw [List.flatMap_cons, List.append_assoc]
    rw [hcons] at hread hdrop ⊢
    rw [List.length_cons, ← Nat.add_assoc, fromUtf8Loop]
    simp only [hread, hdrop, ih (fun c hc => h c (List.mem_cons_of_mem _ hc)), ofPoints_cons,
      List.append_assoc]

/-- No text has more scalar values than bytes. -/
theorem points_length_le (points : List ℕ) :
    points.length ≤ (points.flatMap encodePoint).length := by
  induction points with
  | nil => rfl
  | cons c points ih =>
    have hpos := List.length_pos_of_ne_nil (encodePoint_ne_nil c)
    rw [List.flatMap_cons, List.length_cons, List.length_append]
    omega

/-- The decoding loop on the UTF-8 form of a sequence of scalar values. -/
theorem fromUtf8Loop_points {points : List ℕ} (h : ∀ c ∈ points, IsScalar c) {fuel : ℕ}
    (hfuel : (points.flatMap encodePoint).length ≤ fuel) :
    fromUtf8Loop fuel (points.flatMap encodePoint) = ofPoints points := by
  have hle := points_length_le points
  obtain ⟨more, rfl⟩ : ∃ more, fuel = more + points.length := ⟨fuel - points.length, by omega⟩
  have hloop := fromUtf8Loop_append h more []
  have hnil : fromUtf8Loop more [] = [] := by cases more <;> rfl
  rwa [hnil, List.append_nil, List.append_nil] at hloop

/-- A valid text is a sequence of scalar values. -/
theorem exists_points {s : QString} (h : validUtf16 s = true) :
    ∃ points : List ℕ, (∀ c ∈ points, IsScalar c) ∧ s = ofPoints points := by
  have hunit {u : UInt16} (hu : (!(isHighSurrogate u || isLowSurrogate u)) = true) :
      IsScalar u.toNat ∧ [u] = utf16Point u.toNat := by
    have hlt := u.toNat_lt
    simp only [isHighSurrogate, isLowSurrogate, Bool.not_eq_true', Bool.or_eq_false_iff,
      Bool.and_eq_false_iff, decide_eq_false_iff_not] at hu
    refine ⟨?_, ?_⟩
    · unfold IsScalar
      omega
    · rw [utf16Point, if_pos (by omega), UInt16.ofNat_toNat]
  induction s using validUtf16.induct with
  | case1 => exact ⟨[], by simp, rfl⟩
  | case2 u =>
    rw [validUtf16] at h
    obtain ⟨hscalar, hu⟩ := hunit h
    exact ⟨[u.toNat], by simpa using hscalar, by simpa using hu⟩
  | case3 u v rest hpair ih =>
    rw [validUtf16, if_pos hpair] at h
    obtain ⟨points, hpoints, rfl⟩ := ih h
    simp only [isHighSurrogate, isLowSurrogate, Bool.and_eq_true, decide_eq_true_eq] at hpair
    refine ⟨surrogatePoint u v :: points, ?_, ?_⟩
    · intro c hc
      rcases List.mem_cons.mp hc with hc | hc
      · unfold surrogatePoint at hc
        unfold IsScalar
        omega
      · exact hpoints c hc
    · have hpoint : utf16Point (surrogatePoint u v) = [u, v] := by
        obtain ⟨c, hc⟩ : ∃ c, surrogatePoint u v = c := ⟨_, rfl⟩
        rw [hc]
        unfold surrogatePoint at hc
        rw [utf16Point, if_neg (by omega), ofNat16_eq (u := u) (by omega),
          ofNat16_eq (u := v) (by omega)]
      rw [ofPoints_cons, hpoint, List.cons_append, List.singleton_append]
  | case4 u v rest hpair ih =>
    rw [validUtf16, if_neg hpair, Bool.and_eq_true] at h
    obtain ⟨hscalar, hu⟩ := hunit h.1
    obtain ⟨points, hpoints, hrest⟩ := ih h.2
    refine ⟨u.toNat :: points, ?_, ?_⟩
    · intro c hc
      rcases List.mem_cons.mp hc with rfl | hc
      · exact hscalar
      · exact hpoints c hc
    · rw [ofPoints_cons, ← hu, ← hrest, List.singleton_append]

/-- The text starts with U+FEFF, the byte-order mark. -/
def startsWithBom (s : QString) : Bool := s.head? = some 0xFEFF

/-- Only a mark has the UTF-8 form of one. -/
theorem encodePoint_take_three {c : ℕ} (hc : IsScalar c) (rest : Bytes) :
    (encodePoint c ++ rest).take 3 = [0xEF, 0xBB, 0xBF] ↔ c = 0xFEFF := by
  constructor
  · intro h
    have hmark : decodePoint ([0xEF, 0xBB, 0xBF] ++ (encodePoint c ++ rest).drop 3) =
        some (0xFEFF, 3) := decodePoint_encodePoint (c := 0xFEFF) (by decide) _
    rw [← h, List.take_append_drop, decodePoint_encodePoint hc] at hmark
    exact congrArg Prod.fst (Option.some.inj hmark)
  · rintro rfl
    rfl

/-- A text starts with a mark when its first scalar value is one. -/
theorem startsWithBom_ofPoints_cons {c : ℕ} (hc : IsScalar c) (points : List ℕ) :
    startsWithBom (ofPoints (c :: points)) = true ↔ c = 0xFEFF := by
  unfold IsScalar at hc
  by_cases hsmall : c < 0x10000
  · have hu := toNat_ofNat16 (show c < 65536 by omega)
    rw [startsWithBom, ofPoints_cons, utf16Point, if_pos hsmall, List.singleton_append,
      List.head?_cons, decide_eq_true_eq, Option.some.injEq]
    constructor
    · intro h
      rw [← hu, h]
      rfl
    · rintro rfl
      rfl
  · obtain ⟨hi, lo, hpair, hhigh, -, -⟩ :=
      utf16Point_surrogates (show 0x10000 ≤ c by omega) (by omega)
    rw [startsWithBom, ofPoints_cons, hpair, List.cons_append, List.head?_cons, decide_eq_true_eq,
      Option.some.injEq]
    constructor
    · rintro rfl
      exact absurd hhigh (by decide)
    · rintro rfl
      omega

/-- Reading the UTF-8 form of a sequence of scalar values: a mark at its front is skipped. -/
theorem fromUtf8_points {points : List ℕ} (hpoints : ∀ c ∈ points, IsScalar c) :
    fromUtf8 (points.flatMap encodePoint) =
      if startsWithBom (ofPoints points) then (ofPoints points).tail else ofPoints points := by
  rw [fromUtf8]
  cases points with
  | nil => rfl
  | cons c points =>
    have hc := hpoints c (by simp)
    have htail : ∀ c ∈ points, IsScalar c := fun c hc => hpoints c (List.mem_cons_of_mem _ hc)
    have hmark := encodePoint_take_three hc (points.flatMap encodePoint)
    have hbom := startsWithBom_ofPoints_cons hc points
    by_cases hfeff : c = 0xFEFF
    · subst hfeff
      rw [if_pos (hbom.mpr rfl)]
      simp only [List.flatMap_cons, if_pos (hmark.mpr rfl)]
      exact fromUtf8Loop_points htail (Nat.le_refl _)
    · rw [if_neg (fun hb => hfeff (hbom.mp hb))]
      simp only [List.flatMap_cons, if_neg (fun hm => hfeff (hmark.mp hm))]
      exact fromUtf8Loop_points hpoints (Nat.le_refl _)

/-- Reading the UTF-8 form of a valid text gives the text without a mark at its front. -/
theorem fromUtf8_toStdString {s : QString} (h : validUtf16 s = true) :
    fromUtf8 (toStdString s) = if startsWithBom s then s.tail else s := by
  obtain ⟨points, hpoints, rfl⟩ := exists_points h
  rw [toStdString_ofPoints hpoints, fromUtf8_points hpoints]

/-- A valid text without a mark at its front is read back. -/
theorem fromUtf8_toStdString_of_valid {s : QString} (h : validUtf16 s = true)
    (hbom : startsWithBom s = false) : fromUtf8 (toStdString s) = s := by
  rw [fromUtf8_toStdString h, hbom]
  rfl

/-- Bytes of a valid text come back from the text exactly when no mark is at their front. -/
theorem toStdString_fromUtf8_iff {s : QString} (h : validUtf16 s = true) :
    toStdString (fromUtf8 (toStdString s)) = toStdString s ↔
      (toStdString s).take 3 ≠ [0xEF, 0xBB, 0xBF] := by
  obtain ⟨points, hpoints, rfl⟩ := exists_points h
  rw [toStdString_ofPoints hpoints, fromUtf8_points hpoints]
  cases points with
  | nil => simp [startsWithBom, toStdString]
  | cons c points =>
    have hc := hpoints c (by simp)
    have htail : ∀ c ∈ points, IsScalar c := fun c hc => hpoints c (List.mem_cons_of_mem _ hc)
    have hmark := encodePoint_take_three hc (points.flatMap encodePoint)
    have hbom := startsWithBom_ofPoints_cons hc points
    by_cases hfeff : c = 0xFEFF
    · subst hfeff
      rw [if_pos (hbom.mpr rfl), List.flatMap_cons, ne_eq, hmark]
      have hrest : (ofPoints (0xFEFF :: points)).tail = ofPoints points := rfl
      rw [hrest, toStdString_ofPoints htail]
      refine iff_of_false ?_ (by simp)
      intro hsame
      have hlength := congrArg List.length hsame
      rw [List.length_append] at hlength
      have hpos := List.length_pos_iff.mpr (encodePoint_ne_nil 0xFEFF)
      omega
    · rw [if_neg (fun hb => hfeff (hbom.mp hb)), List.flatMap_cons, ne_eq, hmark]
      refine iff_of_true ?_ hfeff
      rw [toStdString_ofPoints hpoints, List.flatMap_cons]

end Radapter
