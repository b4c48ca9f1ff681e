import Radapter.Modbus.Registers

/-!
# Writing a register and reading it back

`encodeRegister` swaps the words of a two-word register and then the bytes of each word.
`decodeRegister` swaps the words of every register, one-word registers included, and then all
four bytes of a two-word value at once. The exact condition under which the second undoes the
first follows from that.
-/

namespace Radapter.Modbus

/-- The integer a scalar holds. -/
def integer : Scalar → Option ℤ
  | .int n => some n.toInt
  | .uint n => some n.toNat
  | .longlong n => some n.toInt
  | _ => none

/-- The value a scalar stands for in a register of the given type, when it lies in the type's
range: a boolean, an integer below `2 ^ 16` or `2 ^ 32`, or the pattern of a `float`. -/
def standsFor (type : RegisterValueType) (v : Scalar) : Option (BitVec 32) :=
  match type, v with
  | .bit, .bool b => some (if b then 1 else 0)
  | .uint16, v =>
      (integer v).bind (fun n => if 0 ≤ n ∧ n < 2 ^ 16 then some (BitVec.ofInt 32 n) else none)
  | .uint32, v =>
      (integer v).bind (fun n => if 0 ≤ n ∧ n < 2 ^ 32 then some (BitVec.ofInt 32 n) else none)
  | .float32, .float bits => some bits
  | _, _ => none

/-- The words of one register as a reader finds them in its array: a one-word register leaves
the second place as it was. -/
def place (words : List Word) (stale : Word) : Words := (words.getD 0 0, words.getD 1 stale)

/-- Decoding what was encoded gives the value back, whatever the second place of the array held
before. -/
def RoundTrips (qt : Conversions) (reg : PreparedRegister) (v : Scalar) : Prop :=
  ∀ stale, ∃ words u data, encodeRegister qt reg v = .ok words ∧
    decodeRegister reg (place words stale) = some (u, data) ∧
    standsFor reg.type u = standsFor reg.type v

/-- The swap of the two bytes of a word, as a number. -/
private theorem toNat_qbswap16 (x : Word) :
    (qbswap16 x).toNat = x.toNat % 256 * 256 + x.toNat / 256 := by
  rw [qbswap16, BitVec.toNat_ofNat, Nat.mod_eq_of_lt]
  omega

/-- The number that two words make: the second one is the high word. -/
private theorem toNat_load32 (a b : Word) :
    (load32 (a, b)).toNat = b.toNat * 2 ^ 16 + a.toNat := by
  rw [load32, BitVec.toNat_ofNat, Nat.mod_eq_of_lt]
  omega

/-- Two swaps give the word back. -/
@[simp] theorem qbswap16_qbswap16 (x : Word) : qbswap16 (qbswap16 x) = x := by
  apply BitVec.eq_of_toNat_eq
  rw [toNat_qbswap16, toNat_qbswap16]
  omega

/-- Loading the two halves of a value. -/
@[simp] theorem load32_halves (x : BitVec 32) : load32 (lowWord x, highWord x) = x := by
  apply BitVec.eq_of_toNat_eq
  simp only [toNat_load32, lowWord, highWord, BitVec.toNat_ofNat]
  omega

/-- The four digits of a value in base 256. -/
private theorem digits_of_bytes {p q r s : ℕ} (hp : p < 256) (hq : q < 256) (hr : r < 256) :
    (s * 2 ^ 24 + r * 2 ^ 16 + q * 256 + p) % 256 = p ∧
      (s * 2 ^ 24 + r * 2 ^ 16 + q * 256 + p) / 256 % 256 = q ∧
      (s * 2 ^ 24 + r * 2 ^ 16 + q * 256 + p) / 2 ^ 16 % 256 = r ∧
      (s * 2 ^ 24 + r * 2 ^ 16 + q * 256 + p) / 2 ^ 24 = s := by
  refine ⟨?_, ?_, ?_, ?_⟩ <;> omega

/-- A swap of all four bytes undoes the swaps of the two words and exchanges the words. -/
theorem qbswap32_load32 (a b : Word) :
    qbswap32 (load32 (qbswap16 a, qbswap16 b)) = load32 (b, a) := by
  apply BitVec.eq_of_toNat_eq
  have hload : (load32 (qbswap16 a, qbswap16 b)).toNat = b.toNat % 256 * 2 ^ 24 +
      b.toNat / 256 * 2 ^ 16 + a.toNat % 256 * 256 + a.toNat / 256 := by
    rw [toNat_load32, toNat_qbswap16, toNat_qbswap16]
    omega
  have ha := a.isLt
  have hb := b.isLt
  obtain ⟨h0, h1, h2, h3⟩ := digits_of_bytes (p := a.toNat / 256) (q := a.toNat % 256)
    (r := b.toNat / 256) (s := b.toNat % 256) (by omega) (by omega) (by omega)
  rw [qbswap32, hload, h0, h1, h2, h3, toNat_load32, BitVec.toNat_ofNat, Nat.mod_eq_of_lt]
  · omega
  · omega

/-- A number with its words swapped is the same exactly if the two words are. -/
theorem load32_swapped_iff (x : BitVec 32) :
    load32 (highWord x, lowWord x) = x ↔ highWord x = lowWord x := by
  constructor
  · intro h
    have hnat := congrArg BitVec.toNat h
    apply BitVec.eq_of_toNat_eq
    simp only [load32, lowWord, highWord, BitVec.toNat_ofNat] at hnat ⊢
    omega
  · intro h
    have hload := load32_halves x
    rwa [← h] at hload ⊢

/-- An integer in range is read back by `toUInt`. -/
private theorem toUInt_of_integer (qt : Conversions) {v : Scalar} {n : ℤ}
    (hv : integer v = some n) (hpos : 0 ≤ n) (hlt : n < 2 ^ 32) :
    v.toUInt qt = some (BitVec.ofInt 32 n) := by
  cases v with
  | int m =>
    obtain rfl : m.toInt = n := Option.some.inj hv
    simp [Scalar.toUInt]
  | uint m =>
    obtain rfl : (m.toNat : ℤ) = n := Option.some.inj hv
    simp [Scalar.toUInt]
  | longlong m =>
    obtain rfl : m.toInt = n := Option.some.inj hv
    rw [Scalar.toUInt, Option.some_inj]
    apply BitVec.eq_of_toNat_eq
    rw [BitVec.toNat_setWidth, BitVec.toNat_ofInt]
    have hcond := BitVec.toInt_eq_toNat_cond m
    split at hcond <;> omega
  | _ => cases hv

/-- A scalar that stands for a word converts to it. -/
private theorem toUInt_of_standsFor16 (qt : Conversions) {v : Scalar} {x : BitVec 32}
    (hx : standsFor .uint16 v = some x) : v.toUInt qt = some x ∧ x.toNat < 2 ^ 16 := by
  obtain ⟨n, hn, hif⟩ := Option.bind_eq_some_iff.mp hx
  split at hif
  · next hrange =>
    cases hif
    refine ⟨toUInt_of_integer qt hn hrange.1 (by omega), ?_⟩
    rw [BitVec.toNat_ofInt]
    omega
  · cases hif

/-- A scalar that stands for two words converts to them. -/
private theorem toUInt_of_standsFor32 (qt : Conversions) {v : Scalar} {x : BitVec 32}
    (hx : standsFor .uint32 v = some x) : v.toUInt qt = some x := by
  obtain ⟨n, hn, hif⟩ := Option.bind_eq_some_iff.mp hx
  split at hif
  · next hrange =>
    cases hif
    exact toUInt_of_integer qt hn hrange.1 hrange.2
  · cases hif

/-- The encoder finds the value a scalar stands for. -/
theorem encodeRegister_of_standsFor (qt : Conversions) {reg : PreparedRegister} {v : Scalar}
    {x : BitVec 32} (hx : standsFor reg.type v = some x) :
    encodeRegister qt reg v = .ok (if reg.sizeOf = 4 then applyPacking (store32 x) reg.packing
      else if reg.type = .bit then [lowWord x] else applyPacking [lowWord x] reg.packing) := by
  rw [reg.sized]
  cases htype : reg.type with
  | defaultValueType =>
    rw [htype] at hx
    cases v <;> cases hx
  | bit =>
    rw [htype] at hx
    cases v with
    | bool b =>
      cases hx
      cases b <;> simp [encodeRegister, htype, getSizeOf, Scalar.toBool, lowWord]
    | _ => cases hx
  | uint16 =>
    rw [htype] at hx
    obtain ⟨hui, hlt⟩ := toUInt_of_standsFor16 qt hx
    have hword : x.setWidth 16 = lowWord x := by
      apply BitVec.eq_of_toNat_eq
      simp [lowWord]
    simp [encodeRegister, htype, hui, getSizeOf, hword, Nat.not_lt.mpr (Nat.le_of_lt_succ hlt)]
  | uint32 =>
    rw [htype] at hx
    simp [encodeRegister, htype, toUInt_of_standsFor32 qt hx, getSizeOf]
  | float32 =>
    rw [htype] at hx
    cases v with
    | float bits =>
      cases hx
      simp [encodeRegister, htype, Scalar.toFloat, getSizeOf]
    | _ => cases hx

/-- What the decoder reads from the packed words of a 32-bit value. -/
private theorem parseWords32_packed (packing : RegisterPacking) (x : BitVec 32) (stale : Word) :
    parseWords32 packing (swapWords packing (place (applyPacking (store32 x) packing) stale)) =
      if packing.byte = .big then load32 (highWord x, lowWord x) else x := by
  obtain ⟨byte, word⟩ := packing
  cases byte <;> cases word <;>
    simp [parseWords32, swapWords, place, applyPacking, store32, qbswap32_load32]

/-- What the decoder reads from one packed word: with `word = big` the stale second place. -/
private theorem parseWords16_packed (packing : RegisterPacking) (w stale : Word) :
    parseWords16 packing (swapWords packing (place (applyPacking [w] packing) stale)) =
      if packing.word = .little then w else parseWords16 packing (stale, w) := by
  obtain ⟨byte, word⟩ := packing
  cases byte <;> cases word <;> simp [parseWords16, swapWords, place, applyPacking]

/-- Every word is read from some second place. -/
private theorem parseWords16_surjective (packing : RegisterPacking) (w other : Word) :
    ∃ stale, parseWords16 packing (stale, other) = w := by
  by_cases hbyte : packing.byte = .big
  · exact ⟨qbswap16 w, by simp [parseWords16, hbyte]⟩
  · exact ⟨w, by simp [parseWords16, hbyte]⟩

/-- An integer below `2 ^ 16` stands for a word. -/
private theorem standsFor_uint16 {v : Scalar} {n : ℕ} (hv : integer v = some (n : ℤ))
    (hn : n < 2 ^ 16) : standsFor .uint16 v = some (BitVec.ofNat 32 n) := by
  have hrange : (0 : ℤ) ≤ n ∧ (n : ℤ) < 2 ^ 16 := by omega
  rw [standsFor, hv, Option.bind_some, if_pos hrange, BitVec.ofInt_natCast]

/-- An integer below `2 ^ 32` stands for two words. -/
private theorem standsFor_uint32 {v : Scalar} {n : ℕ} (hv : integer v = some (n : ℤ))
    (hn : n < 2 ^ 32) : standsFor .uint32 v = some (BitVec.ofNat 32 n) := by
  have hrange : (0 : ℤ) ≤ n ∧ (n : ℤ) < 2 ^ 32 := by omega
  rw [standsFor, hv, Option.bind_some, if_pos hrange, BitVec.ofInt_natCast]

/-- A word stands for itself as an `int`. -/
private theorem standsFor_uint16_int (w : Word) :
    standsFor .uint16 (.int (w.setWidth 32)) = some (w.setWidth 32) := by
  have hw := w.isLt
  have hint : integer (.int (w.setWidth 32)) = some (w.toNat : ℤ) := by
    rw [integer, BitVec.toInt_eq_toNat_of_lt] <;> rw [BitVec.toNat_setWidth_of_le (by decide)]
    omega
  rw [standsFor_uint16 hint hw, ← BitVec.ofNat_toNat]

/-- Two words stand for themselves as an unsigned `int`. -/
private theorem standsFor_uint32_uint (x : BitVec 32) :
    standsFor .uint32 (.uint x) = some x := by
  rw [standsFor_uint32 rfl x.isLt, BitVec.ofNat_toNat, BitVec.setWidth_eq]

/-- A byte order that is chosen is one of two. -/
private theorem byteOrder_eq_big_or (o : ByteOrder) : o = .big ∨ o = .little := by
  cases o
  · exact .inl rfl
  · exact .inr rfl

/-- A two-word register, whose value the decoder reads from both words. -/
private theorem roundTrips_twoWords (qt : Conversions) {reg : PreparedRegister} {v : Scalar}
    {x : BitVec 32} (hx : standsFor reg.type v = some x) (hsize : reg.sizeOf = 4) :
    RoundTrips qt reg v ↔ reg.packing.byte = .little ∨ highWord x = lowWord x := by
  have henc := encodeRegister_of_standsFor qt hx
  rw [if_pos hsize] at henc
  have hdec : ∀ stale, ∃ u data, decodeRegister reg
      (place (applyPacking (store32 x) reg.packing) stale) = some (u, data) ∧
      standsFor reg.type u = some
        (if reg.packing.byte = .big then load32 (highWord x, lowWord x) else x) := by
    intro stale
    have hparse := parseWords32_packed reg.packing x stale
    rw [reg.sized] at hsize
    cases htype : reg.type with
    | defaultValueType => simp [htype, getSizeOf] at hsize
    | bit => simp [htype, getSizeOf] at hsize
    | uint16 => simp [htype, getSizeOf] at hsize
    | uint32 =>
      refine ⟨_, _, by simp only [decodeRegister, htype]; rfl, ?_⟩
      rw [standsFor_uint32_uint, hparse]
    | float32 =>
      refine ⟨_, _, by simp only [decodeRegister, htype]; rfl, ?_⟩
      rw [standsFor, hparse]
  have hvalue : RoundTrips qt reg v ↔
      (if reg.packing.byte = .big then load32 (highWord x, lowWord x) else x) = x := by
    constructor
    · intro h
      obtain ⟨words, u, data, hwords, hu, heq⟩ := h 0
      obtain ⟨u', data', hu', heq'⟩ := hdec 0
      cases henc.symm.trans hwords
      cases hu'.symm.trans hu
      rw [heq', hx, Option.some_inj] at heq
      exact heq
    · intro h stale
      obtain ⟨u, data, hu, heq⟩ := hdec stale
      exact ⟨_, u, data, henc, hu, by rw [heq, hx, h]⟩
  rw [hvalue]
  rcases byteOrder_eq_big_or reg.packing.byte with hbyte | hbyte
  · simp [hbyte, load32_swapped_iff]
  · simp [hbyte]

/-- One word is decoded from the first place of the array, and the swap of the words moves it there
or away. -/
private theorem roundTrips_uint16 (qt : Conversions) {reg : PreparedRegister} {v : Scalar}
    {x : BitVec 32} (hx : standsFor reg.type v = some x) (htype : reg.type = .uint16) :
    RoundTrips qt reg v ↔ reg.packing.word = .little := by
  have hsmall : (lowWord x).setWidth 32 = x := by
    rw [htype] at hx
    have hlt := (toUInt_of_standsFor16 qt hx).2
    apply BitVec.eq_of_toNat_eq
    rw [BitVec.toNat_setWidth, lowWord, BitVec.toNat_ofNat]
    omega
  have henc := encodeRegister_of_standsFor qt hx
  rw [reg.sized, htype, if_neg (by decide), if_neg (by decide)] at henc
  have hdec : ∀ stale, ∃ data, decodeRegister reg
      (place (applyPacking [lowWord x] reg.packing) stale) = some (.int ((
        if reg.packing.word = .little then lowWord x
        else parseWords16 reg.packing (stale, lowWord x)).setWidth 32), data) := by
    intro stale
    rw [← parseWords16_packed reg.packing (lowWord x) stale]
    exact ⟨_, by simp only [decodeRegister, htype]; rfl⟩
  constructor
  · intro h
    by_contra hword
    obtain ⟨stale, hstale⟩ := parseWords16_surjective reg.packing (lowWord x + 1#16) (lowWord x)
    obtain ⟨words, u, data, hwords, hu, heq⟩ := h stale
    obtain ⟨data', hu'⟩ := hdec stale
    cases henc.symm.trans hwords
    cases hu'.symm.trans hu
    rw [if_neg hword, hstale, hx, htype, standsFor_uint16_int, Option.some_inj] at heq
    have hnat := congrArg BitVec.toNat (heq.trans hsmall.symm)
    simp only [BitVec.toNat_setWidth, BitVec.toNat_add, BitVec.toNat_ofNat] at hnat
    omega
  · intro hword stale
    obtain ⟨data, hu⟩ := hdec stale
    refine ⟨_, _, data, henc, hu, ?_⟩
    rw [if_pos hword, hx, htype, standsFor_uint16_int, hsmall]

/-- A bit is decoded from that place too. -/
private theorem roundTrips_bit (qt : Conversions) {reg : PreparedRegister} {v : Scalar}
    {x : BitVec 32} (hx : standsFor reg.type v = some x) (htype : reg.type = .bit) :
    RoundTrips qt reg v ↔ reg.packing.word = .little := by
  have henc := encodeRegister_of_standsFor qt hx
  rw [reg.sized, htype, if_neg (by decide), if_pos rfl] at henc
  rw [htype] at hx
  cases v with
  | bool b =>
    cases hx
    constructor
    · intro h
      by_contra hword
      obtain ⟨words, u, data, hwords, hu, heq⟩ := h (if b then 0 else 1)
      cases henc.symm.trans hwords
      simp only [decodeRegister, htype, swapWords, if_pos hword, place, Option.some_inj,
        Prod.mk.injEq] at hu
      rw [htype, ← hu.1] at heq
      revert heq
      cases b <;> decide
    · intro hword stale
      refine ⟨_, _, _, henc, by simp only [decodeRegister, htype]; rfl, ?_⟩
      simp only [swapWords, hword, htype]
      cases b <;> rfl
  | _ => cases hx

/-- A one-word register: with `word = big` the decoder reads the second place of its array. -/
private theorem roundTrips_oneWord (qt : Conversions) {reg : PreparedRegister} {v : Scalar}
    {x : BitVec 32} (hx : standsFor reg.type v = some x) (hsize : reg.sizeOf = 2) :
    RoundTrips qt reg v ↔ reg.packing.word = .little := by
  rw [reg.sized] at hsize
  cases htype : reg.type with
  | defaultValueType =>
    rw [htype] at hx
    cases v <;> cases hx
  | bit => exact roundTrips_bit qt hx htype
  | uint16 => exact roundTrips_uint16 qt hx htype
  | uint32 => simp [htype, getSizeOf] at hsize
  | float32 => simp [htype, getSizeOf] at hsize

/-- The exact condition of the round trip: a one-word register must keep the host's word order,
and a two-word register the host's byte order unless its two words are equal. -/
theorem roundTrips_iff (qt : Conversions) {reg : PreparedRegister} {v : Scalar} {x : BitVec 32}
    (hx : standsFor reg.type v = some x) :
    RoundTrips qt reg v ↔
      (reg.sizeOf = 2 ∧ reg.packing.word = .little) ∨
        (reg.sizeOf = 4 ∧ (reg.packing.byte = .little ∨ highWord x = lowWord x)) := by
  have hsize : reg.sizeOf = 2 ∨ reg.sizeOf = 4 := by
    rw [reg.sized]
    cases reg.type <;> simp [getSizeOf]
  rcases hsize with hsize | hsize
  · simp [roundTrips_oneWord qt hx hsize, hsize]
  · simp [roundTrips_twoWords qt hx hsize, hsize]

/-- A `uint32` register with swapped words in the host's byte order. -/
theorem roundTrips_word_big :
    RoundTrips integersOnly { key := [], type := .uint32, packing := { word := .big }, index := 0 }
      (.longlong 0x12345678) := by
  have hx : standsFor .uint32 (.longlong 0x12345678) = some 0x12345678#32 := by decide
  exact (roundTrips_iff integersOnly hx).mpr (.inr ⟨rfl, .inl rfl⟩)

/-- A `uint16` register with `word = big` and a `uint32` register with `byte = big` do not give
back what was written. -/
theorem not_roundTrips_big :
    (standsFor .uint16 (.longlong 5)).isSome ∧ (standsFor .uint32 (.longlong 5)).isSome ∧
      ¬ RoundTrips integersOnly
        { key := [], type := .uint16, packing := { word := .big }, index := 0 } (.longlong 5) ∧
      ¬ RoundTrips integersOnly
        { key := [], type := .uint32, packing := { byte := .big }, index := 0 } (.longlong 5) := by
  refine ⟨by decide, by decide, ?_, ?_⟩
  · have hx : standsFor .uint16 (.longlong 5) = some 5#32 := by decide
    rw [roundTrips_oneWord integersOnly hx rfl]
    decide
  · have hx : standsFor .uint32 (.longlong 5) = some 5#32 := by decide
    rw [roundTrips_twoWords integersOnly hx rfl]
    decide

end Radapter.Modbus
