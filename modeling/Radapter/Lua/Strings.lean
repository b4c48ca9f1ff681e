import Mathlib.Data.List.TakeWhile
import Radapter.Lua.Convert

/-!
# Strings that survive as leaves

`toStrOrBinary` makes a text of every string its decoder reports no error for. The decoder skips a
byte-order mark and keeps an incomplete sequence at the end to itself, so for strings with either
the text has fewer bytes than the string. A string with an error becomes a byte array, whose size
goes through an `int`.
-/

namespace Radapter.Lua

/-- UTF-8: a sequence of encoded scalar values. -/
def IsUtf8 (s : Bytes) : Prop :=
  ∃ points : List ℕ, (∀ c ∈ points, IsScalar c) ∧ s = points.flatMap encodePoint

/-- UTF-8 up to an incomplete sequence at the end. -/
def IsUtf8UpToTail (s : Bytes) : Prop :=
  ∃ (points : List ℕ) (tail : Bytes), (∀ c ∈ points, IsScalar c) ∧
    s = points.flatMap encodePoint ++ tail ∧ (tail = [] ∨ cutShort tail = true)

/-- The UTF-8 form of the byte-order mark. -/
def mark : Bytes := [0xEF, 0xBB, 0xBF]

/-- A size that the conversion to `int` keeps, or a negative one for a string without a NUL. -/
def SizeKept (s : Bytes) : Prop := s.length < 2 ^ 31 ∨ asInt s.length < 0 ∧ 0 ∉ s

/-- The strings that survive: complete UTF-8 without a byte-order mark at its front, or bytes
that are no UTF-8 even before their end and that are not too many. -/
def StringKept (s : Bytes) : Prop :=
  IsUtf8 s ∧ s.take 3 ≠ mark ∨ ¬ IsUtf8UpToTail s ∧ SizeKept s

/-- A leaf that holds all the bytes of a string. -/
def Carries (s : Bytes) : Scalar → Prop
  | .string q => toStdString q = s
  | .byteArray b => b = s
  | _ => False

/-! ## The decoder -/

/-- Without an error the decoder read scalar values up to what it keeps. -/
theorem points_of_decodeLoop {fuel : ℕ} {bytes : Bytes} (hfuel : bytes.length ≤ fuel)
    (h : (decodeLoop fuel bytes).hasError = false) :
    ∃ points, (∀ c ∈ points, IsScalar c) ∧
      bytes = points.flatMap encodePoint ++ (decodeLoop fuel bytes).remaining ∧
      ((decodeLoop fuel bytes).remaining = [] ∨
        cutShort (decodeLoop fuel bytes).remaining = true) ∧
      (decodeLoop fuel bytes).text = ofPoints points := by
  induction fuel generalizing bytes with
  | zero =>
    obtain rfl : bytes = [] := List.length_eq_zero_iff.mp (by omega)
    exact ⟨[], by simp, rfl, .inl rfl, rfl⟩
  | succ fuel ih =>
    cases bytes with
    | nil => exact ⟨[], by simp, rfl, .inl rfl, rfl⟩
    | cons b rest =>
      rw [decodeLoop] at h ⊢
      cases hread : decodePoint (b :: rest) with
      | none =>
        simp only [hread] at h ⊢
        split at h
        · next hcut =>
          rw [if_pos hcut]
          exact ⟨[], by simp, rfl, .inr hcut, rfl⟩
        · cases h
      | some found =>
        obtain ⟨c, len⟩ := found
        obtain ⟨hc, more, hbytes, rfl⟩ := encodePoint_of_decodePoint hread
        simp only [hread] at h ⊢
        rw [hbytes, List.drop_left] at h ⊢
        have hpos := List.length_pos_of_ne_nil (encodePoint_ne_nil c)
        have hlen := congrArg List.length hbytes
        rw [List.length_append] at hlen
        obtain ⟨points, hpoints, hmore, htail, htext⟩ := ih (by omega) h
        refine ⟨c :: points, ?_, ?_, htail, ?_⟩
        · exact List.forall_mem_cons.mpr ⟨hc, hpoints⟩
        · rw [List.flatMap_cons, List.append_assoc, ← hmore]
        · rw [htext, ofPoints_cons]

/-- Decoding finds no error exactly in UTF-8 that may be cut off at its end. -/
theorem decodeLoop_hasError_iff {bytes : Bytes} :
    (decodeLoop bytes.length bytes).hasError = false ↔ IsUtf8UpToTail bytes := by
  constructor
  · intro h
    obtain ⟨points, hpoints, hbytes, htail, -⟩ := points_of_decodeLoop (Nat.le_refl _) h
    exact ⟨points, _, hpoints, hbytes, htail⟩
  · rintro ⟨points, tail, hpoints, rfl, htail⟩
    rw [decodeLoop_points hpoints htail (Nat.le_refl _)]

/-- A byte-order mark at the front does not matter for being UTF-8. -/
theorem isUtf8UpToTail_mark (body : Bytes) :
    IsUtf8UpToTail (mark ++ body) ↔ IsUtf8UpToTail body := by
  have hmark : encodePoint 0xFEFF = mark := by decide
  have hscalar : IsScalar 0xFEFF := by decide
  constructor
  · rintro ⟨points, tail, hpoints, hbytes, htail⟩
    have hread := decodePoint_encodePoint hscalar body
    rw [hmark, hbytes] at hread
    cases points with
    | nil =>
      rw [List.flatMap_nil, List.nil_append] at hread
      rcases htail with rfl | hcut
      · cases hread
      · rw [decodePoint_of_cutShort hcut] at hread
        cases hread
    | cons c points =>
      rw [List.flatMap_cons, List.append_assoc] at hread hbytes
      rw [decodePoint_encodePoint (hpoints c (by simp))] at hread
      obtain rfl : c = 0xFEFF := by
        simp only [Option.some.injEq, Prod.mk.injEq] at hread
        exact hread.1
      rw [hmark] at hbytes
      exact ⟨points, tail, fun c hc => hpoints c (List.mem_cons_of_mem _ hc),
        List.append_cancel_left hbytes, htail⟩
  · rintro ⟨points, tail, hpoints, rfl, htail⟩
    refine ⟨0xFEFF :: points, tail, ?_, ?_, htail⟩
    · exact List.forall_mem_cons.mpr ⟨hscalar, hpoints⟩
    · rw [List.flatMap_cons, hmark, List.append_assoc]

/-- A string with a mark at its front and what follows it. -/
theorem mark_append_drop {s : Bytes} (h : s.take 3 = mark) : mark ++ s.drop 3 = s := by
  rw [← h, List.take_append_drop]

/-- The decoder works on what follows a mark. -/
theorem decodeUtf8_of_mark {s : Bytes} (h : s.take 3 = mark) :
    decodeUtf8 s = decodeLoop (s.drop 3).length (s.drop 3) := by
  unfold mark at h
  simp only [decodeUtf8, if_pos h]

/-- Without a mark the decoder works on the whole string. -/
theorem decodeUtf8_of_not_mark {s : Bytes} (h : s.take 3 ≠ mark) :
    decodeUtf8 s = decodeLoop s.length s := by
  unfold mark at h
  simp only [decodeUtf8, if_neg h]

/-- The decoder reports no error exactly for UTF-8 up to its tail. -/
theorem decodeUtf8_hasError_iff {s : Bytes} :
    (decodeUtf8 s).hasError = false ↔ IsUtf8UpToTail s := by
  by_cases hmark : s.take 3 = mark
  · have hsplit := isUtf8UpToTail_mark (s.drop 3)
    rw [mark_append_drop hmark] at hsplit
    rw [decodeUtf8_of_mark hmark, hsplit]
    exact decodeLoop_hasError_iff
  · rw [decodeUtf8_of_not_mark hmark]
    exact decodeLoop_hasError_iff

/-! ## The leaf of a string -/

/-- The byte array has all the bytes when its size is kept. -/
theorem sizedBytes_eq_iff {s : Bytes} : sizedBytes s = s ↔ SizeKept s := by
  unfold sizedBytes SizeKept
  constructor
  · intro h
    split at h
    · next hneg =>
      refine .inr ⟨hneg, ?_⟩
      intro hzero
      rw [← h] at hzero
      simpa using List.mem_takeWhile_imp hzero
    · next hpos =>
      left
      by_contra hlarge
      have hlen := congrArg List.length h
      rw [List.length_take] at hlen
      unfold asInt at hpos hlen
      split at hpos <;> omega
  · rintro (hsmall | ⟨hneg, hzero⟩)
    · rw [asInt_of_lt hsmall, if_neg (by omega), Int.toNat_natCast, List.take_length]
    · rw [if_pos hneg, List.takeWhile_eq_self_iff]
      intro b hb
      simp only [ne_eq, decide_not, Bool.not_eq_true', decide_eq_false_iff_not]
      rintro rfl
      exact hzero hb

/-- UTF-8 is UTF-8 up to an empty tail. -/
theorem IsUtf8.upToTail {s : Bytes} (h : IsUtf8 s) : IsUtf8UpToTail s := by
  obtain ⟨points, hpoints, rfl⟩ := h
  exact ⟨points, [], hpoints, (List.append_nil _).symm, .inl rfl⟩

/-- The text of a string that is UTF-8 up to its tail has all the bytes exactly when the string has
no tail and no mark. -/
theorem toStdString_decodeUtf8_iff {s : Bytes} (h : IsUtf8UpToTail s) :
    toStdString (decodeUtf8 s).text = s ↔ IsUtf8 s ∧ s.take 3 ≠ mark := by
  have herror := decodeUtf8_hasError_iff.mpr h
  by_cases hmark : s.take 3 = mark
  · refine iff_of_false ?_ (fun hkept => hkept.2 hmark)
    rw [decodeUtf8_of_mark hmark] at herror ⊢
    obtain ⟨points, hpoints, hbytes, -, htext⟩ := points_of_decodeLoop (Nat.le_refl _) herror
    rw [htext, toStdString_ofPoints hpoints]
    intro heq
    have hlen := congrArg List.length (mark_append_drop hmark)
    have hbelow := congrArg List.length hbytes
    rw [List.length_append] at hlen hbelow
    rw [heq] at hbelow
    simp only [mark, List.length_cons, List.length_nil] at hlen
    omega
  · rw [decodeUtf8_of_not_mark hmark] at herror ⊢
    obtain ⟨points, hpoints, hbytes, htail, htext⟩ := points_of_decodeLoop (Nat.le_refl _) herror
    rw [htext, toStdString_ofPoints hpoints]
    constructor
    · intro heq
      exact ⟨⟨points, hpoints, heq.symm⟩, hmark⟩
    · rintro ⟨⟨others, hothers, hs⟩, -⟩
      have hread := @decodeLoop_points others hothers [] (.inl rfl) _ (Nat.le_refl _)
      rw [List.append_nil, ← hs] at hread
      rw [hread, List.append_nil] at hbytes
      exact hbytes.symm

/-- The leaf of a string has all its bytes exactly when the string is one that survives. -/
theorem carries_toStrOrBinary_iff {s : Bytes} : Carries s (toStrOrBinary s) ↔ StringKept s := by
  unfold toStrOrBinary StringKept
  by_cases h : IsUtf8UpToTail s
  · rw [decodeUtf8_hasError_iff.mpr h, if_neg Bool.false_ne_true, Carries,
      toStdString_decodeUtf8_iff h]
    simp [h]
  · have herror : (decodeUtf8 s).hasError = true := by
      rw [← Bool.not_eq_false, decodeUtf8_hasError_iff]
      exact h
    have hnot : ¬ IsUtf8 s := fun hs => h hs.upToTail
    rw [herror, if_pos rfl, Carries, sizedBytes_eq_iff]
    simp [h, hnot]

/-! ## The text of a string -/

/-- UTF-8 behind UTF-8 is UTF-8. -/
theorem IsUtf8.append {a b : Bytes} (ha : IsUtf8 a) (hb : IsUtf8 b) : IsUtf8 (a ++ b) := by
  obtain ⟨points, hpoints, rfl⟩ := ha
  obtain ⟨more, hmore, rfl⟩ := hb
  exact ⟨points ++ more, List.forall_mem_append.mpr ⟨hpoints, hmore⟩, List.flatMap_append.symm⟩

/-- So is the form of each scalar value. -/
theorem isUtf8_encodePoint {c : ℕ} (hc : IsScalar c) : IsUtf8 (encodePoint c) :=
  ⟨[c], by simpa using hc, by simp⟩

/-- One unit is encoded as UTF-8, an unpaired surrogate as a question mark. -/
theorem isUtf8_encodeUnit (u : UInt16) : IsUtf8 (encodeUnit u) := by
  unfold encodeUnit
  split
  · exact isUtf8_encodePoint (c := 0x3F) (by decide)
  · next hunit =>
    simp only [isHighSurrogate, isLowSurrogate, Bool.or_eq_true, Bool.and_eq_true,
      decide_eq_true_eq] at hunit
    have hlt := u.toNat_lt
    apply isUtf8_encodePoint
    unfold IsScalar
    omega

/-- The bytes of a text are UTF-8, also where its units are no valid UTF-16. -/
theorem isUtf8_toStdString (q : QString) : IsUtf8 (toStdString q) := by
  induction q using toStdString.induct with
  | case1 => exact ⟨[], by simp, rfl⟩
  | case2 u => exact isUtf8_encodeUnit u
  | case3 u v rest hpair ih =>
    rw [toStdString, if_pos hpair]
    simp only [isHighSurrogate, isLowSurrogate, Bool.and_eq_true, decide_eq_true_eq] at hpair
    refine (isUtf8_encodePoint ?_).append ih
    unfold IsScalar surrogatePoint
    omega
  | case4 u v rest hpair ih =>
    rw [toStdString, if_neg hpair]
    exact (isUtf8_encodeUnit u).append ih

/-- Bytes that are read as a text come back from it exactly when they are UTF-8 without a mark. -/
theorem toStdString_fromUtf8_eq_iff {s : Bytes} :
    toStdString (fromUtf8 s) = s ↔ IsUtf8 s ∧ s.take 3 ≠ mark := by
  have hback {points : List ℕ} (hpoints : ∀ c ∈ points, IsScalar c) :
      toStdString (fromUtf8 (points.flatMap encodePoint)) = points.flatMap encodePoint ↔
        (points.flatMap encodePoint).take 3 ≠ mark := by
    have hiff := toStdString_fromUtf8_iff (validUtf16_ofPoints hpoints)
    rwa [toStdString_ofPoints hpoints] at hiff
  constructor
  · intro h
    have hutf8 := isUtf8_toStdString (fromUtf8 s)
    rw [h] at hutf8
    refine ⟨hutf8, ?_⟩
    obtain ⟨points, hpoints, rfl⟩ := hutf8
    exact (hback hpoints).mp h
  · rintro ⟨⟨points, hpoints, rfl⟩, hmark⟩
    exact (hback hpoints).mpr hmark

/-- The text of what `toStrOrBinary` made of a string has its bytes exactly when they are UTF-8
without a mark, whether it was made a text or a byte array. -/
theorem toStdString_toStrOrBinary_iff {s : Bytes} {q : QString}
    (hq : toStrOrBinary s = .string q ∨ ∃ b, toStrOrBinary s = .byteArray b ∧ q = fromUtf8 b) :
    toStdString q = s ↔ IsUtf8 s ∧ s.take 3 ≠ mark := by
  unfold toStrOrBinary at hq
  by_cases h : IsUtf8UpToTail s
  · rw [decodeUtf8_hasError_iff.mpr h, if_neg Bool.false_ne_true] at hq
    obtain rfl : (decodeUtf8 s).text = q := by simpa using hq
    exact toStdString_decodeUtf8_iff h
  · have hnot : ¬ IsUtf8 s := fun hs => h hs.upToTail
    refine iff_of_false ?_ (fun hs => hnot hs.1)
    intro heq
    exact hnot (heq ▸ isUtf8_toStdString q)

end Radapter.Lua
