import Mathlib.Algebra.Order.Ring.Nat
import Mathlib.Data.List.Basic

/-!
# Bytes and text

The workers pass text around in two forms: `std::string` is a sequence of bytes, and
`QString` is a sequence of UTF-16 code units. Paths of message fields are byte strings,
keys of message maps are `QString`s, and every walk over a message converts between them.
-/

namespace Radapter

/-- `std::string`, `QByteArray` and `string_view`: a sequence of bytes. -/
abbrev Bytes := List UInt8

/-- `QString`: a sequence of UTF-16 code units, possibly with unpaired surrogates. -/
abbrev QString := List UInt16

/-- `std::string::resize`: cut the string, or pad it with zero bytes. -/
def resize (s : Bytes) (n : ℕ) : Bytes := s.take n ++ List.replicate (n - s.length) 0

/-- Cutting a string never pads it. -/
@[simp] theorem resize_of_le {s : Bytes} {n : ℕ} (hn : n ≤ s.length) : resize s n = s.take n := by
  simp [resize, Nat.sub_eq_zero_of_le hn]

/-- `std::to_string` of an unsigned number: its decimal digits, most significant first. -/
def decimal (n : ℕ) : Bytes := (Nat.toDigits 10 n).map (fun c => UInt8.ofNat c.toNat)

/-- The UTF-8 form of one code point. -/
def encodePoint (c : ℕ) : Bytes :=
  if c < 0x80 then [UInt8.ofNat c]
  else if c < 0x800 then [UInt8.ofNat (0xC0 + c / 64), UInt8.ofNat (0x80 + c % 64)]
  else if c < 0x10000 then
    [UInt8.ofNat (0xE0 + c / 4096), UInt8.ofNat (0x80 + c / 64 % 64), UInt8.ofNat (0x80 + c % 64)]
  else
    [UInt8.ofNat (0xF0 + c / 262144), UInt8.ofNat (0x80 + c / 4096 % 64),
      UInt8.ofNat (0x80 + c / 64 % 64), UInt8.ofNat (0x80 + c % 64)]

/-- A UTF-16 unit that opens a surrogate pair. -/
def isHighSurrogate (u : UInt16) : Bool := 0xD800 ≤ u.toNat && u.toNat < 0xDC00

/-- A UTF-16 unit that closes a surrogate pair. -/
def isLowSurrogate (u : UInt16) : Bool := 0xDC00 ≤ u.toNat && u.toNat < 0xE000

/-- The code point of a surrogate pair. -/
def surrogatePoint (hi lo : UInt16) : ℕ :=
  0x10000 + (hi.toNat - 0xD800) * 0x400 + (lo.toNat - 0xDC00)

/-- One UTF-16 unit that is not part of a pair; an unpaired surrogate becomes a question mark. -/
def encodeUnit (u : UInt16) : Bytes :=
  if isHighSurrogate u || isLowSurrogate u then [0x3F] else encodePoint u.toNat

/-- `QString::toStdString`: the UTF-8 form of the text. -/
def toStdString : QString → Bytes
  | [] => []
  | [u] => encodeUnit u
  | u :: v :: rest =>
      if isHighSurrogate u && isLowSurrogate v then
        encodePoint (surrogatePoint u v) ++ toStdString rest
      else encodeUnit u ++ toStdString (v :: rest)

/-- The UTF-16 form of one code point. -/
def utf16Point (c : ℕ) : QString :=
  if c < 0x10000 then [UInt16.ofNat c]
  else
    [UInt16.ofNat (0xD800 + (c - 0x10000) / 0x400),
      UInt16.ofNat (0xDC00 + (c - 0x10000) % 0x400)]

/-- Continuation bytes of a UTF-8 sequence, folded into the bits read so far. -/
def continuation (acc : ℕ) : Bytes → Option ℕ
  | [] => some acc
  | b :: rest =>
      if 0x80 ≤ b.toNat && b.toNat < 0xC0 then continuation (acc * 64 + (b.toNat - 0x80)) rest
      else none

/-- Number of bytes a UTF-8 sequence takes, the least code point it may stand for and the
bits its first byte carries; `none` for a byte that cannot start a sequence. -/
def sequenceHead (b : ℕ) : Option (ℕ × ℕ × ℕ) :=
  if b < 0x80 then some (1, 0, b)
  else if b < 0xC2 then none
  else if b < 0xE0 then some (2, 0x80, b - 0xC0)
  else if b < 0xF0 then some (3, 0x800, b - 0xE0)
  else if b < 0xF5 then some (4, 0x10000, b - 0xF0)
  else none

/-- One well-formed UTF-8 sequence at the front of the bytes: its code point and its length.
Overlong forms, surrogates and points beyond U+10FFFF are refused. -/
def decodePoint : Bytes → Option (ℕ × ℕ)
  | [] => none
  | b :: rest => do
      let (len, least, bits) ← sequenceHead b.toNat
      if rest.length + 1 < len then none
      else
        let c ← continuation bits (rest.take (len - 1))
        if c < least ∨ (0xD800 ≤ c ∧ c < 0xE000) ∨ 0x10FFFF < c then none else some (c, len)

/-- The decoding loop: a byte that starts no well-formed sequence becomes U+FFFD. -/
def fromUtf8Loop : ℕ → Bytes → QString
  | 0, _ => []
  | fuel + 1, bytes =>
      match bytes with
      | [] => []
      | _ :: rest =>
          match decodePoint bytes with
          | some (c, len) => utf16Point c ++ fromUtf8Loop fuel (bytes.drop len)
          | none => 0xFFFD :: fromUtf8Loop fuel rest

/-- `QString::fromUtf8`: a leading byte-order mark is skipped. Every round of the loop
consumes at least one byte, so the length of the input bounds the rounds. -/
def fromUtf8 (bytes : Bytes) : QString :=
  let text := if bytes.take 3 = [0xEF, 0xBB, 0xBF] then bytes.drop 3 else bytes
  fromUtf8Loop text.length text

/-- Conversion of a size to `int`: its value modulo `2 ^ 32`, with the upper half negative. -/
def asInt (n : ℕ) : ℤ :=
  if n % 2 ^ 32 < 2 ^ 31 then (n % 2 ^ 32 : ℕ) else (n % 2 ^ 32 : ℕ) - 2 ^ 32

/-- `QString::fromUtf8(data, int(size))`, where `text` runs from `data` to the end of the string
that `data` points into. A negative size makes Qt look for the terminating NUL. -/
def fromUtf8Sized (text : Bytes) (size : ℕ) : QString :=
  fromUtf8 (if asInt size < 0 then text.takeWhile (· ≠ 0) else text.take (asInt size).toNat)

/-- Sizes below `2 ^ 31` are converted without a change. -/
theorem asInt_of_lt {n : ℕ} (h : n < 2 ^ 31) : asInt n = n := by
  have hmod : n % 2 ^ 32 = n := Nat.mod_eq_of_lt (by omega)
  rw [asInt, hmod, if_pos h]

/-- A short part of a string is read as it is. -/
theorem fromUtf8Sized_of_lt {part : Bytes} (h : part.length < 2 ^ 31) (rest : Bytes) :
    fromUtf8Sized (part ++ rest) part.length = fromUtf8 part := by
  rw [fromUtf8Sized, asInt_of_lt h, if_neg (by omega), Int.toNat_natCast, List.take_left]

/-! ## Decimal text -/

/-- The characters of digits stand in a row. -/
private theorem digit_toNat {c : Char} (hc : c.isDigit = true) : 48 ≤ c.toNat ∧ c.toNat ≤ 57 := by
  simp only [Char.isDigit, Bool.and_eq_true, decide_eq_true_eq] at hc
  exact ⟨UInt32.le_iff_toNat_le.mp hc.1, UInt32.le_iff_toNat_le.mp hc.2⟩

/-- A digit of a number is one byte. -/
private theorem digit_byte {n : ℕ} {c : Char} (hc : c ∈ Nat.toDigits 10 n) :
    (UInt8.ofNat c.toNat).toNat = c.toNat ∧ 48 ≤ c.toNat ∧ c.toNat ≤ 57 := by
  have hdigit := digit_toNat (Nat.isDigit_of_mem_toDigits (by decide) (by decide) hc)
  refine ⟨?_, hdigit⟩
  rw [UInt8.toNat_ofNat', Nat.mod_eq_of_lt (by omega)]

/-- Every byte of a decimal text is a digit. -/
theorem decimal_digit {n : ℕ} {b : UInt8} (hb : b ∈ decimal n) : 48 ≤ b.toNat ∧ b.toNat ≤ 57 := by
  obtain ⟨c, hc, rfl⟩ := List.mem_map.mp hb
  rw [(digit_byte hc).1]
  exact (digit_byte hc).2

/-- A decimal text has at least one digit. -/
theorem decimal_length_pos (n : ℕ) : 0 < (decimal n).length := by
  simpa [decimal] using Nat.length_toDigits_pos

/-- A number has no more digits than units. -/
theorem decimal_length_le (n : ℕ) : (decimal n).length ≤ n + 1 := by
  simp only [decimal, List.length_map]
  rw [Nat.length_toDigits_le_iff (by decide) (by omega)]
  have hself : n + 1 < 10 ^ (n + 1) := Nat.lt_pow_self (by decide)
  omega

/-- Different numbers have different decimal texts. -/
theorem decimal_injective : Function.Injective decimal := by
  intro m n h
  have hback (k : ℕ) : (decimal k).map (fun b => Char.ofNat b.toNat) = Nat.toDigits 10 k := by
    rw [decimal, List.map_map]
    refine (List.map_congr_left ?_).trans (List.map_id _)
    intro c hc
    simp only [Function.comp_apply, (digit_byte hc).1, Char.ofNat_toNat, id]
  have hdigits : Nat.toDigits 10 m = Nat.toDigits 10 n := by rw [← hback m, ← hback n, h]
  have hm := Nat.ofDigitChars_ten_toDigits (n := m)
  rw [hdigits, Nat.ofDigitChars_ten_toDigits] at hm
  exact hm.symm

/-- It is the byte that C computes. -/
private theorem digitByte (n : ℕ) :
    UInt8.ofNat (Nat.digitChar (n % 10)).toNat = UInt8.ofNat (48 + n % 10) := by
  have hall : ∀ d < 10, UInt8.ofNat (Nat.digitChar d).toNat = UInt8.ofNat (48 + d) := by decide
  exact hall _ (Nat.mod_lt n (by decide))

/-- The text of a number of several digits ends in its last digit. -/
theorem decimal_snoc {n : ℕ} (h : 10 ≤ n) :
    decimal n = decimal (n / 10) ++ [UInt8.ofNat (48 + n % 10)] := by
  rw [decimal, Nat.toDigits_of_base_le (by decide) h, List.map_append, List.map_singleton,
    digitByte, decimal]

/-- The text of a single digit. -/
theorem decimal_of_lt {n : ℕ} (h : n < 10) : decimal n = [UInt8.ofNat (48 + n % 10)] := by
  rw [decimal, Nat.toDigits_of_lt_base h, List.map_singleton, ← digitByte, Nat.mod_eq_of_lt h]

/-- A decimal digit. -/
abbrev IsDigit (ch : UInt8) : Prop := 48 ≤ ch.toNat ∧ ch.toNat ≤ 57

/-- The decimal value of a digit text. -/
def digitsValue (digits : Bytes) : ℕ := digits.foldl (fun n ch => n * 10 + (ch.toNat - 48)) 0

/-- The value of a text with a further digit. -/
theorem digitsValue_concat (digits : Bytes) (ch : UInt8) :
    digitsValue (digits ++ [ch]) = digitsValue digits * 10 + (ch.toNat - 48) := by
  rw [digitsValue, List.foldl_concat, ← digitsValue]

/-- The decimal text of a number has its value. -/
theorem digitsValue_decimal (n : ℕ) : digitsValue (decimal n) = n := by
  have hdigit (m : ℕ) : (UInt8.ofNat (48 + m % 10)).toNat - 48 = m % 10 := by
    rw [UInt8.toNat_ofNat', Nat.mod_eq_of_lt (by omega), Nat.add_sub_cancel_left]
  induction n using Nat.strongRecOn with
  | ind n ih =>
    by_cases hsmall : n < 10
    · rw [decimal_of_lt hsmall, ← List.nil_append [_], digitsValue_concat, hdigit,
        Nat.mod_eq_of_lt hsmall]
      exact Nat.zero_add n
    · rw [decimal_snoc (by omega), digitsValue_concat, ih (n / 10) (by omega), hdigit]
      omega

end Radapter
