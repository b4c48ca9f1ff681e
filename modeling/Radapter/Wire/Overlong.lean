import Radapter.Wire.Line

/-!
# Lines that are too long

When more than `MAX_LINE_BYTES` bytes have come without a newline, `parseLineFrames` drops them. It
does not remember that it did, so that the rest of the line is read as a line of its own when its
newline comes.

With the text protocol no line is refused, and the text of a line is longer than that of its end.
The file says on which streams, cut in which chunks, the receiver emits nothing but lines.
-/

namespace Radapter.Wire.Line

open Library Slip

/-! ## The length of a text -/

/-- How many units the decoding loop makes of the bytes. -/
private def units (bytes : Bytes) : ℕ := (fromUtf8Loop bytes.length bytes).length

/-- More rounds than bytes make no difference. -/
private theorem fromUtf8Loop_more {fuel : ℕ} {bytes : Bytes} (h : bytes.length ≤ fuel) :
    fromUtf8Loop fuel bytes = fromUtf8Loop bytes.length bytes := by
  induction fuel using Nat.strongRecOn generalizing bytes with
  | ind fuel ih =>
    cases bytes with
    | nil => cases fuel <;> rfl
    | cons b rest =>
      rw [List.length_cons] at h
      obtain ⟨n, rfl⟩ : ∃ n, fuel = n + 1 := ⟨fuel - 1, by omega⟩
      rw [List.length_cons, fromUtf8Loop, fromUtf8Loop]
      cases hread : decodePoint (b :: rest) with
      | none => simp only [ih n (by omega) (show rest.length ≤ n by omega)]
      | some r =>
        obtain ⟨c, len⟩ := r
        obtain ⟨_, tail, _, _, _, _, hlen, -⟩ := decodePoint_eq_some hread
        have hdrop : ((b :: rest).drop len).length ≤ rest.length := by
          rw [List.length_drop, List.length_cons]
          omega
        have hleft := ih n (by omega) (Nat.le_trans hdrop (by omega))
        simp only [hleft]
        rcases Nat.lt_or_ge rest.length (n + 1) with hlt | hge
        · rw [ih rest.length hlt hdrop]
        · omega

/-- A byte that begins no sequence makes one unit. -/
private theorem units_of_none {b : UInt8} {rest : Bytes} (h : decodePoint (b :: rest) = none) :
    units (b :: rest) = 1 + units rest := by
  rw [units, List.length_cons, fromUtf8Loop]
  simp only [h, List.length_cons, units]
  omega

/-- A sequence makes the units of its code point. -/
private theorem units_of_some {b : UInt8} {rest : Bytes} {c len : ℕ}
    (h : decodePoint (b :: rest) = some (c, len)) :
    units (b :: rest) = (utf16Point c).length + units ((b :: rest).drop len) := by
  obtain ⟨_, tail, _, _, _, -, hlen, -⟩ := decodePoint_eq_some h
  rw [units, List.length_cons, fromUtf8Loop]
  simp only [h, List.length_append, units]
  rw [fromUtf8Loop_more]
  rw [List.length_drop, List.length_cons]
  omega

/-- A sequence has at most four bytes, and as many as three of them for each unit. -/
private theorem length_of_decodePoint {bytes : Bytes} {c len : ℕ}
    (h : decodePoint bytes = some (c, len)) : 1 ≤ len ∧ len ≤ 4 ∧ 1 ≤ (utf16Point c).length ∧
      (utf16Point c).length ≤ 2 ∧ len ≤ 3 * (utf16Point c).length ∧
      (utf16Point c).length ≤ len := by
  obtain ⟨b, tail, rest, least, bits, rfl, hlen, hhead, hcont, hleast, -⟩ := decodePoint_eq_some h
  unfold sequenceHead at hhead
  unfold utf16Point
  split_ifs at hhead with h1 h2 h3 h4 h5
  all_goals
    obtain ⟨rfl, rfl, rfl⟩ : _ = len ∧ _ = least ∧ _ = bits := by
      simpa only [Option.some.injEq, Prod.mk.injEq] using hhead
  · have hbits : c = b.toNat := by
      obtain rfl : tail = [] := List.length_eq_zero_iff.mp (by omega)
      exact (Option.some.inj hcont).symm
    rw [if_pos (by omega), List.length_singleton]
    omega
  all_goals
    split_ifs
    · rw [List.length_singleton]
      omega
    · simp

/-- A byte that only continues a sequence becomes a unit of its own. -/
private theorem units_continuation {tail : Bytes} (h : ∀ b ∈ tail, 0x80 ≤ b.toNat ∧ b.toNat < 0xC0)
    (rest : Bytes) : units (tail ++ rest) = tail.length + units rest := by
  induction tail with
  | nil => simp
  | cons b tail ih =>
    obtain ⟨hb, htail⟩ := List.forall_mem_cons.mp h
    have hnone : decodePoint (b :: (tail ++ rest)) = none := by
      rw [decodePoint, sequenceHead, if_neg (by omega), if_pos (by omega)]
      rfl
    rw [List.cons_append, units_of_none hnone, ih htail, List.length_cons]
    omega

/-- Without its first byte a text is shorter by one unit at most. -/
private theorem units_cons_le (b : UInt8) (rest : Bytes) : units (b :: rest) ≤ 1 + units rest := by
  cases hread : decodePoint (b :: rest) with
  | none => exact Nat.le_of_eq (units_of_none hread)
  | some r =>
    obtain ⟨c, len⟩ := r
    obtain ⟨-, -, -, htwo, -, hunits⟩ := length_of_decodePoint hread
    rw [units_of_some hread]
    obtain ⟨_, tail, more, _, _, heq, hlen, -, hcont, -⟩ := decodePoint_eq_some hread
    obtain ⟨rfl, rfl⟩ := List.cons_eq_cons.mp heq
    have hdrop : (b :: (tail ++ more)).drop len = more := by rw [hlen, List.drop_succ_cons,
      List.drop_left]
    rw [hdrop, units_continuation (continuation_eq_some hcont).1]
    omega

/-- Every byte in front adds one unit at most. -/
private theorem units_le_drop (n : ℕ) (bytes : Bytes) : units bytes ≤ n + units (bytes.drop n) := by
  induction n generalizing bytes with
  | zero => simp
  | succ n ih =>
    cases bytes with
    | nil => simp
    | cons b rest =>
      have hfirst := units_cons_le b rest
      have hrest := ih rest
      rw [List.drop_succ_cons]
      omega

/-- Bytes in front of others make a unit for every three of them, but for a sequence that begins
in them and ends in the others. -/
private theorem length_le_units (front back : Bytes) :
    front.length + 3 * units back ≤ 3 * units (front ++ back) + 9 := by
  induction hlength : front.length using Nat.strongRecOn generalizing front with
  | ind n ih =>
    cases front with
    | nil =>
      rw [List.length_nil] at hlength
      rw [List.nil_append]
      omega
    | cons b rest =>
      rw [List.length_cons] at hlength
      rw [List.cons_append]
      cases hread : decodePoint (b :: (rest ++ back)) with
      | none =>
        have hrest := ih rest.length (by omega) rest rfl
        rw [units_of_none hread]
        omega
      | some r =>
        obtain ⟨c, len⟩ := r
        obtain ⟨hone, hfour, -, -, hthree, -⟩ := length_of_decodePoint hread
        rw [units_of_some hread]
        rcases Nat.le_total len (rest.length + 1) with hle | hge
        · have hdrop : (b :: (rest ++ back)).drop len = (b :: rest).drop len ++ back := by
            rw [← List.cons_append, List.drop_append_of_le_length hle]
          have hlen : ((b :: rest).drop len).length = n - len := by
            rw [List.length_drop, List.length_cons, hlength]
          have hrest := ih (n - len) (by omega) _ hlen
          rw [hdrop]
          omega
        · -- the sequence ends in the bytes behind
          have hdrop : (b :: (rest ++ back)).drop len = back.drop (len - (rest.length + 1)) := by
            rw [← List.cons_append, List.drop_append, List.drop_of_length_le hge,
              List.nil_append, List.length_cons]
          have hback := units_le_drop (len - (rest.length + 1)) back
          rw [hdrop]
          omega

/-- The text of some bytes is no longer than their units, but for the end of a sequence that is cut
off. -/
private theorem length_fromUtf8_le (bytes : Bytes) : (fromUtf8 bytes).length ≤ units bytes + 2 := by
  rw [fromUtf8]
  split_ifs with hbom
  · have hfront := length_le_units (bytes.take 3) (bytes.drop 3)
    rw [List.take_append_drop, hbom] at hfront
    have hthree : [(0xEF : UInt8), 0xBB, 0xBF].length = 3 := rfl
    rw [hthree] at hfront
    change units (bytes.drop 3) ≤ _
    omega
  · exact Nat.le_add_right _ 2

/-- A text is longer than the text of its end, when enough stands in front of that. -/
theorem length_fromUtf8_append {front : Bytes} (h : 32 ≤ front.length) (back : Bytes) :
    (fromUtf8 back).length < (fromUtf8 (front ++ back)).length := by
  have hback := length_fromUtf8_le back
  conv_rhs => rw [fromUtf8]
  split_ifs
  · have hfront := length_le_units (front.drop 3) back
    rw [List.drop_append_of_le_length (by omega)]
    rw [List.length_drop] at hfront
    change _ < units (front.drop 3 ++ back)
    omega
  · have hfront := length_le_units front back
    change _ < units (front ++ back)
    omega

/-! ## The lines of a stream -/

/-- The lines of a stream: what stands before its newlines. -/
def completeLines (stream : Bytes) : List Bytes := (stream.splitOn newline).dropLast

/-- What follows the last newline. -/
def unterminated (stream : Bytes) : Bytes :=
  (stream.splitOn newline).getLast (List.splitOn_ne_nil newline stream)

/-- The loop takes the complete lines of a stream and leaves what follows. -/
theorem drain_eq (stream : Bytes) :
    lines.drain stream = (completeLines stream, unterminated stream) := by
  rw [lines, Splitter.delimited_drain, List.map_id]
  rfl

/-- Lines that begin in one part may end in the next. -/
theorem completeLines_append (front back : Bytes) :
    completeLines (front ++ back) =
      completeLines front ++ completeLines (unterminated front ++ back) := by
  have happ := congrArg Prod.fst (lines.drain_append front back)
  simpa only [drain_eq] using happ

/-- What follows the last newline may do so over two parts. -/
theorem unterminated_append (front back : Bytes) :
    unterminated (front ++ back) = unterminated (unterminated front ++ back) := by
  have happ := congrArg Prod.snd (lines.drain_append front back)
  simpa only [drain_eq] using happ

/-- There is no newline behind the last one. -/
theorem newline_notMem_unterminated (stream : Bytes) : newline ∉ unterminated stream :=
  Splitter.not_mem_of_mem_splitOn (List.getLast_mem _)

/-- Without a newline nothing is complete. -/
theorem lines_of_notMem {part : Bytes} (h : newline ∉ part) :
    completeLines part = [] ∧ unterminated part = part := by
  simp [completeLines, unterminated, List.splitOn_eq_singleton h]

/-- Up to its first newline a stream is a line. -/
theorem lines_append_cons {line : Bytes} (h : newline ∉ line) (rest : Bytes) :
    completeLines (line ++ newline :: rest) = line :: completeLines rest ∧
      unterminated (line ++ newline :: rest) = unterminated rest := by
  have hsplit : lines.split (line ++ newline :: rest) = some (line, rest) :=
    Splitter.delimited_split newline id h rest
  have hdrain := lines.drain_of_some hsplit
  simp only [drain_eq, Prod.mk.injEq] at hdrain
  exact hdrain

/-- The text that is emitted for a line. -/
def text (line : Bytes) : QVariant := .leaf (.string (fromUtf8 (chopReturn line)))

/-- The text of a line differs from that of its end, when enough stands in front of that. -/
theorem text_append_ne {lost : Bytes} (h : MAX_LINE_BYTES < lost.length) (line : Bytes) :
    text (lost ++ line) ≠ text line := by
  have hlong : 4096 < lost.length := h
  intro heq
  simp only [text, QVariant.leaf.injEq, Scalar.string.injEq] at heq
  by_cases hline : line = []
  · subst hline
    have hchop : lost.length ≤ (chopReturn lost).length + 1 := by
      rw [chopReturn]
      split_ifs
      · rw [List.length_dropLast]
        omega
      · exact Nat.le_add_right _ 1
    have hlonger := length_fromUtf8_append (show 32 ≤ (chopReturn lost).length by omega) []
    rw [List.append_nil] at heq hlonger
    rw [heq] at hlonger
    exact Nat.lt_irrefl _ hlonger
  · have hchop : chopReturn (lost ++ line) = lost ++ chopReturn line := by
      rw [chopReturn, chopReturn, List.getLast?_append_of_ne_nil _ hline,
        List.dropLast_append_of_ne_nil hline]
      split_ifs
      · rfl
      · rfl
    have hlonger := length_fromUtf8_append (show 32 ≤ lost.length by omega) (chopReturn line)
    rw [hchop] at heq
    rw [heq] at hlonger
    exact Nat.lt_irrefl _ hlonger

/-! ## Lines that are too long for an `int` -/

section Int

variable {fromProto : ProtoParser}

/-- A size that is not negative as an `int` is its lowest bits. -/
private theorem asInt_of_nonneg {n : ℕ} (h : 0 ≤ asInt n) :
    asInt n = (n % 2 ^ 32 : ℕ) ∧ n % 2 ^ 32 < 2 ^ 31 := by
  unfold asInt at h ⊢
  split_ifs at h ⊢ with hsmall
  · exact ⟨rfl, hsmall⟩
  · omega

/-- One round of the loop, when it returns messages. -/
private theorem exists_of_parseLineLoop {n i : ℕ} {buffer : Bytes}
    (hi : buffer.idxOf? newline = some i) {messages : List QVariant} {rest : Bytes}
    (h : parseLineLoop fromProto (n + 1) buffer = some (.ok messages, rest)) :
    ∃ more, parseLineLoop fromProto n (buffer.drop (asInt i + 1).toNat) =
      some (.ok more, rest) := by
  rw [parseLineLoop] at h
  simp only [hi] at h
  split at h
  · cases h
  · obtain ⟨⟨result, left⟩, hloop, heq⟩ := Option.map_eq_some_iff.mp h
    simp only [Prod.mk.injEq] at heq
    obtain ⟨hresult, rfl⟩ := heq
    cases result with
    | error e => cases hresult
    | ok more => exact ⟨more, hloop⟩

/-- A line whose length is negative as an `int` stays in the buffer. -/
private theorem not_ok_of_negative {buffer : Bytes} {i : ℕ}
    (hi : buffer.idxOf? newline = some i) (hneg : asInt i < 0) (n : ℕ) {messages : List QVariant}
    {rest : Bytes} : parseLineLoop fromProto n buffer ≠ some (.ok messages, rest) := by
  induction n generalizing messages with
  | zero => exact fun h => by cases h
  | succ n ih =>
    intro h
    obtain ⟨more, hmore⟩ := exists_of_parseLineLoop hi h
    rw [Int.toNat_of_nonpos (by omega), List.drop_zero] at hmore
    exact ih hmore

/-- The first newline is the one behind the line. -/
private theorem idxOf?_line {line : Bytes} (hline : newline ∉ line) (rest : Bytes) :
    (line ++ newline :: rest).idxOf? newline = some line.length := by
  obtain ⟨i, hi, hlength, -⟩ := split_eq_some (Splitter.delimited_split newline id hline rest)
  rw [hi, ← hlength]
  rfl

/-- The loop returns no messages when it comes to a line that is too long for an `int`: if its
length wraps to a number that is not negative, the rest of the line has length `-1`. -/
private theorem not_ok_of_long {line : Bytes} (hline : newline ∉ line)
    (hlong : 2 ^ 31 ≤ line.length) (behind : Bytes) (n : ℕ) {messages : List QVariant}
    {rest : Bytes} :
    parseLineLoop fromProto n (line ++ newline :: behind) ≠ some (.ok messages, rest) := by
  rcases Int.lt_or_le (asInt line.length) 0 with hneg | hpos
  · exact not_ok_of_negative (idxOf?_line hline behind) hneg n
  · obtain ⟨hwraps, hsmall⟩ := asInt_of_nonneg hpos
    cases n with
    | zero => exact fun h => by cases h
    | succ n =>
      intro h
      obtain ⟨more, hmore⟩ := exists_of_parseLineLoop (idxOf?_line hline behind) h
      rw [hwraps, Int.toNat_natCast_add_one, List.drop_append_of_le_length (by omega)] at hmore
      have htail : newline ∉ line.drop (line.length % 2 ^ 32 + 1) :=
        fun hmem => hline (List.mem_of_mem_drop hmem)
      have hneg : asInt (line.drop (line.length % 2 ^ 32 + 1)).length < 0 := by
        rw [List.length_drop, asInt]
        split_ifs
        · omega
        · omega
      exact not_ok_of_negative (idxOf?_line htail behind) hneg n hmore

/-- The loop returns messages only if all lines have a length that fits an `int`. -/
theorem short_of_parseLineLoop {n : ℕ} {buffer : Bytes} {messages : List QVariant} {rest : Bytes}
    (h : parseLineLoop fromProto n buffer = some (.ok messages, rest)) :
    ∀ line ∈ completeLines buffer, line.length < 2 ^ 31 := by
  induction n generalizing buffer messages with
  | zero => cases h
  | succ n ih =>
    by_cases hmem : newline ∈ buffer
    · obtain ⟨line, tail, rfl, hline⟩ := List.eq_append_cons_of_mem hmem
      have hlt : line.length < 2 ^ 31 := by
        by_contra hlong
        exact not_ok_of_long hline (Nat.not_lt.mp hlong) tail (n + 1) h
      obtain ⟨more, hmore⟩ := exists_of_parseLineLoop (idxOf?_line hline tail) h
      rw [asInt_of_lt hlt, Int.toNat_natCast_add_one, ← List.singleton_append,
        ← List.append_assoc, List.drop_left' (by simp)] at hmore
      rw [(lines_append_cons hline tail).1, List.forall_mem_cons]
      exact ⟨hlt, ih hmore⟩
    · rw [(lines_of_notMem hmem).1]
      exact fun _ h => nomatch h

/-- `parseLineFrames` returns messages exactly if the lines fit and the protocol reads all of
them. -/
theorem parseLineFrames_ok_iff {buffer : Bytes} {messages : List QVariant} {rest : Bytes} :
    parseLineFrames fromProto buffer = some (.ok messages, rest) ↔
      (∀ line ∈ completeLines buffer, line.length < 2 ^ 31) ∧
        List.Forall₂ (Parses fromProto) (completeLines buffer) messages ∧
        rest = keepShort (unterminated buffer) := by
  have hdrain := drain_eq buffer
  constructor
  · intro h
    have hshort := short_of_parseLineLoop h
    rw [parseLineFrames_eq_ok (by rw [hdrain]; exact hshort), hdrain] at h
    exact ⟨hshort, h⟩
  · rintro ⟨hshort, h⟩
    rw [parseLineFrames_eq_ok (by rw [hdrain]; exact hshort), hdrain]
    exact h

end Int

/-! ## One chunk -/

section Text

variable (behind : Bytes)

/-- A line with a length that fits an `int` is read as its text. -/
theorem parses_text {line : Bytes} (h : line.length < 2 ^ 31) :
    Parses (parseTextProto behind) line (text line) := by
  have hchop : (chopReturn line).length ≤ line.length := by
    rw [chopReturn]
    split_ifs
    · rw [List.length_dropLast]
      omega
    · exact Nat.le_refl _
  rw [Parses, parseTextProto, fromUtf8Sized_of_lt (Nat.lt_of_le_of_lt hchop h), text]

/-- The text protocol refuses nothing. -/
private theorem text_not_error (n : ℕ) {buffer rest : Bytes} {e : String} :
    parseLineLoop (parseTextProto behind) n buffer ≠ some (.error e, rest) := by
  induction n generalizing buffer with
  | zero => exact fun h => by cases h
  | succ n ih =>
    rw [parseLineLoop]
    split
    · exact fun h => by cases h
    · simp only [parseTextProto]
      intro h
      obtain ⟨⟨result, left⟩, hloop, heq⟩ := Option.map_eq_some_iff.mp h
      simp only [Prod.mk.injEq] at heq
      obtain ⟨hresult, rfl⟩ := heq
      cases result with
      | error e' =>
        cases hresult
        exact ih hloop
      | ok more => cases hresult

/-- `parseLineFrames` with the text protocol. -/
theorem parseLineFrames_text (buffer : Bytes) :
    parseLineFrames (parseTextProto behind) buffer =
      if ∀ line ∈ completeLines buffer, line.length < 2 ^ 31 then
        some (.ok ((completeLines buffer).map text), keepShort (unterminated buffer))
      else none := by
  split_ifs with hshort
  · refine parseLineFrames_ok_iff.mpr ⟨hshort, ?_, rfl⟩
    rw [List.forall₂_map_right_iff, List.forall₂_same]
    exact fun line hline => parses_text behind (hshort line hline)
  · cases hresult : parseLineFrames (parseTextProto behind) buffer with
    | none => rfl
    | some r =>
      obtain ⟨result, rest⟩ := r
      cases result with
      | error e => exact absurd hresult (text_not_error behind _)
      | ok messages => exact absurd (parseLineFrames_ok_iff.mp hresult).1 hshort

/-- A chunk, for a worker with the text protocol. -/
theorem step_text {s : Receiver} (hthrown : s.thrown = none) (chunk : Bytes) :
    s.step (parseTextProto behind) chunk =
      if ∀ line ∈ completeLines (s.buffer ++ chunk), line.length < 2 ^ 31 then
        some { emitted := s.emitted ++ (completeLines (s.buffer ++ chunk)).map text
               buffer := keepShort (unterminated (s.buffer ++ chunk)) }
      else none := by
  simp only [Receiver.step, hthrown, parseLineFrames_text, Option.isSome_none, Bool.false_eq_true,
    if_false]
  split_ifs
  · rfl
  · rfl

/-! ## The whole stream -/

/-- Bytes in front of a part of a stream, without a newline, belong to its first line. -/
theorem lines_append_of_notMem {lost : Bytes} (hlost : newline ∉ lost) (part : Bytes) :
    completeLines (lost ++ part) = (completeLines part).modifyHead (lost ++ ·) ∧
      unterminated (lost ++ part) = if newline ∈ part then unterminated part else lost ++ part := by
  by_cases hpart : newline ∈ part
  · obtain ⟨line, rest, rfl, hline⟩ := List.eq_append_cons_of_mem hpart
    have hwhole : newline ∉ lost ++ line := by
      rw [List.mem_append, not_or]
      exact ⟨hlost, hline⟩
    rw [if_pos hpart, ← List.append_assoc, (lines_append_cons hwhole rest).1,
      (lines_append_cons hwhole rest).2, (lines_append_cons hline rest).1,
      (lines_append_cons hline rest).2]
    exact ⟨rfl, rfl⟩
  · have hwhole : newline ∉ lost ++ part := by
      rw [List.mem_append, not_or]
      exact ⟨hlost, hpart⟩
    rw [if_neg hpart, (lines_of_notMem hwhole).1, (lines_of_notMem hwhole).2,
      (lines_of_notMem hpart).1]
    exact ⟨rfl, rfl⟩

/-- Behind the beginning of a line: no line is too long for an `int`, and no newline comes any more
when a chunk has left more than `MAX_LINE_BYTES` bytes without one. -/
structure Unbroken (start : Bytes) (chunks : List Bytes) : Prop where
  short : ∀ line ∈ completeLines (start ++ chunks.flatten), line.length < 2 ^ 31
  ended : ∀ front back, chunks = front ++ back →
    MAX_LINE_BYTES < (unterminated (start ++ front.flatten)).length → newline ∉ back.flatten

/-- A chunk completes lines, and the rest goes on behind what it leaves. -/
theorem unbroken_cons {start chunk : Bytes} {chunks : List Bytes} :
    Unbroken start (chunk :: chunks) ↔
      (∀ line ∈ completeLines (start ++ chunk), line.length < 2 ^ 31) ∧
        (MAX_LINE_BYTES < (unterminated start).length → newline ∉ (chunk :: chunks).flatten) ∧
        Unbroken (unterminated (start ++ chunk)) chunks := by
  have hlines : completeLines (start ++ (chunk :: chunks).flatten) =
      completeLines (start ++ chunk) ++
        completeLines (unterminated (start ++ chunk) ++ chunks.flatten) := by
    rw [List.flatten_cons, ← List.append_assoc, completeLines_append]
  have hlast : ∀ front : List Bytes, unterminated (start ++ (chunk :: front).flatten) =
      unterminated (unterminated (start ++ chunk) ++ front.flatten) := by
    intro front
    rw [List.flatten_cons, ← List.append_assoc, unterminated_append]
  constructor
  · rintro ⟨hshort, hended⟩
    rw [hlines, List.forall_mem_append] at hshort
    refine ⟨hshort.1, ?_, hshort.2, ?_⟩
    · intro hlong
      apply hended [] (chunk :: chunks) rfl
      rwa [List.flatten_nil, List.append_nil]
    · intro front back hchunks hlong
      apply hended (chunk :: front) back (by rw [hchunks, List.cons_append])
      rwa [hlast]
  · rintro ⟨hfirst, hstart, hshort, hended⟩
    constructor
    · rw [hlines, List.forall_mem_append]
      exact ⟨hfirst, hshort⟩
    · intro front back hchunks hlong
      cases front with
      | nil =>
        rw [List.nil_append] at hchunks
        rw [List.flatten_nil, List.append_nil] at hlong
        exact hchunks ▸ hstart hlong
      | cons c front =>
        rw [List.cons_append] at hchunks
        obtain ⟨rfl, rfl⟩ := List.cons_eq_cons.mp hchunks
        rw [hlast] at hlong
        exact hended front back rfl hlong

/-- What has been emitted stays the beginning of what is emitted. -/
theorem emitted_prefix {s t : Receiver} {chunks : List Bytes} (hthrown : s.thrown = none)
    (hrun : run (Receiver.step (parseTextProto behind)) s chunks = some t) :
    s.emitted <+: t.emitted := by
  induction chunks generalizing s with
  | nil =>
    cases hrun
    exact List.prefix_refl _
  | cons chunk chunks ih =>
    obtain ⟨next, hnext, hrun⟩ := Option.bind_eq_some_iff.mp hrun
    rw [step_text behind hthrown] at hnext
    obtain ⟨-, rfl⟩ := of_guarded hnext
    exact (List.prefix_append ..).trans (ih rfl hrun)

/-- The receiver emits a text for every newline that it gets. -/
theorem length_emitted {s t : Receiver} {chunks : List Bytes} (hthrown : s.thrown = none)
    (hbuffer : newline ∉ s.buffer)
    (hrun : run (Receiver.step (parseTextProto behind)) s chunks = some t) :
    t.emitted.length =
      s.emitted.length + (completeLines (s.buffer ++ chunks.flatten)).length := by
  induction chunks generalizing s with
  | nil =>
    cases hrun
    rw [List.flatten_nil, List.append_nil, (lines_of_notMem hbuffer).1]
    rfl
  | cons chunk chunks ih =>
    obtain ⟨next, hnext, hrun⟩ := Option.bind_eq_some_iff.mp hrun
    rw [step_text behind hthrown] at hnext
    obtain ⟨-, rfl⟩ := of_guarded hnext
    have hrest := newline_notMem_unterminated (s.buffer ++ chunk)
    have hkept : newline ∉ keepShort (unterminated (s.buffer ++ chunk)) := by
      rw [keepShort]
      split_ifs
      · exact List.not_mem_nil
      · exact hrest
    rw [ih rfl hkept hrun, List.flatten_cons, ← List.append_assoc,
      completeLines_append (s.buffer ++ chunk), List.length_append, List.length_append,
      List.length_map]
    -- what is dropped takes no line with it
    have hsame : (completeLines (keepShort (unterminated (s.buffer ++ chunk)) ++
          chunks.flatten)).length =
        (completeLines (unterminated (s.buffer ++ chunk) ++ chunks.flatten)).length := by
      rw [keepShort]
      split_ifs
      · rw [(lines_append_of_notMem hrest _).1, List.length_modifyHead, List.nil_append]
      · rfl
    dsimp only
    omega

/-- What the loop drops of a buffer without a newline. -/
def dropped (buffer : Bytes) : Bytes := if MAX_LINE_BYTES < buffer.length then buffer else []

/-- A buffer is either kept or dropped. -/
theorem dropped_append_keepShort (buffer : Bytes) :
    dropped buffer ++ keepShort buffer = buffer := by
  rw [dropped, keepShort]
  split_ifs
  · exact List.append_nil buffer
  · exact List.nil_append buffer

/-- What is lost after a chunk is again nothing or longer than a line may be. -/
theorem long_of_dropped {lost : Bytes} (hgone : lost = [] ∨ MAX_LINE_BYTES < lost.length)
    (buffer : Bytes) : lost ++ dropped buffer = [] ∨
      MAX_LINE_BYTES < (lost ++ dropped buffer).length := by
  rw [dropped, List.length_append, List.append_eq_nil_iff]
  split_ifs
  · omega
  · rw [List.length_nil]
    exact hgone.imp (fun h => ⟨h, rfl⟩) (fun h => h)

/-- What is kept is no longer than a line may be. -/
theorem length_keepShort_le (buffer : Bytes) : (keepShort buffer).length ≤ MAX_LINE_BYTES := by
  rw [keepShort]
  split_ifs
  · exact Nat.zero_le _
  · omega

/-- Unless the lost line ends in the chunk, the lines of the chunk are those that the receiver
sees. -/
theorem lines_append_chunk {lost buffer chunk : Bytes} (hlost : newline ∉ lost)
    (hbuffer : newline ∉ buffer) (hbroken : ¬ (lost ≠ [] ∧ newline ∈ chunk)) :
    completeLines (lost ++ buffer ++ chunk) = completeLines (buffer ++ chunk) ∧
      unterminated (lost ++ buffer ++ chunk) = lost ++ unterminated (buffer ++ chunk) := by
  rw [List.append_assoc]
  by_cases hne : lost = []
  · rw [hne]
    exact ⟨rfl, rfl⟩
  · have hnone : newline ∉ buffer ++ chunk := by
      rw [List.mem_append, not_or]
      exact ⟨hbuffer, fun h => hbroken ⟨hne, h⟩⟩
    have happ := lines_append_of_notMem hlost (buffer ++ chunk)
    rw [if_neg hnone, (lines_of_notMem hnone).1] at happ
    rw [(lines_of_notMem hnone).1, (lines_of_notMem hnone).2]
    exact happ

/-- If the lost line ends in the chunk, the receiver emits its rest as a line of its own. -/
theorem emitted_ne_of_lost {s t : Receiver} {lost chunk : Bytes} {chunks : List Bytes}
    (hthrown : s.thrown = none) (hlost : newline ∉ lost) (hlong : MAX_LINE_BYTES < lost.length)
    (hchunk : newline ∈ chunk)
    (hrun : run (Receiver.step (parseTextProto behind)) s (chunk :: chunks) = some t) :
    t.emitted ≠
      s.emitted ++ (completeLines (lost ++ s.buffer ++ (chunk :: chunks).flatten)).map text := by
  intro hemitted
  obtain ⟨next, hnext, hrun⟩ := Option.bind_eq_some_iff.mp hrun
  rw [step_text behind hthrown] at hnext
  obtain ⟨-, rfl⟩ := of_guarded hnext
  obtain ⟨more, hmore⟩ := emitted_prefix behind rfl hrun
  have hmem : newline ∈ s.buffer ++ chunk := List.mem_append_right _ hchunk
  obtain ⟨line, rest, heq, hline⟩ := List.eq_append_cons_of_mem hmem
  have hfirst := (lines_append_of_notMem hlost (s.buffer ++ chunk)).1
  rw [heq, (lines_append_cons hline rest).1, List.modifyHead_cons] at hfirst
  rw [hemitted, List.flatten_cons, ← List.append_assoc,
    completeLines_append (lost ++ s.buffer ++ chunk), List.append_assoc lost, heq, hfirst,
    (lines_append_cons hline rest).1] at hmore
  simp only [List.map_cons, List.append_assoc, List.cons_append] at hmore
  have hhead := (List.cons_eq_cons.mp (List.append_cancel_left hmore)).1
  exact text_append_ne hlong line hhead.symm

/-- Behind what has been lost of a line the receiver emits the texts of the lines exactly if the
stream is unbroken. -/
theorem run_text_iff {s : Receiver} {lost : Bytes} {chunks : List Bytes} (hthrown : s.thrown = none)
    (hlost : newline ∉ lost) (hbuffer : newline ∉ s.buffer)
    (hfits : s.buffer.length ≤ MAX_LINE_BYTES) (hgone : lost = [] ∨ MAX_LINE_BYTES < lost.length) :
    (∃ t, run (Receiver.step (parseTextProto behind)) s chunks = some t ∧
        t.emitted = s.emitted ++ (completeLines (lost ++ s.buffer ++ chunks.flatten)).map text) ↔
      Unbroken (lost ++ s.buffer) chunks := by
  have hstart : newline ∉ lost ++ s.buffer := by
    rw [List.mem_append, not_or]
    exact ⟨hlost, hbuffer⟩
  induction chunks generalizing s lost with
  | nil =>
    rw [List.flatten_nil, List.append_nil, (lines_of_notMem hstart).1]
    apply iff_of_true
    · exact ⟨s, rfl, by rw [List.map_nil, List.append_nil]⟩
    · constructor
      · rw [List.flatten_nil, List.append_nil, (lines_of_notMem hstart).1]
        exact fun _ h => nomatch h
      · intro front back hchunks _
        rw [(List.append_eq_nil_iff.mp hchunks.symm).2]
        exact List.not_mem_nil
  | cons chunk chunks ih =>
    rw [unbroken_cons, (lines_of_notMem hstart).2]
    by_cases hbroken : lost ≠ [] ∧ newline ∈ chunk
    · -- the line whose beginning is lost ends in this chunk
      obtain ⟨hne, hchunk⟩ := hbroken
      have hlong := hgone.resolve_left hne
      apply iff_of_false
      · rintro ⟨t, hrun, hemitted⟩
        exact emitted_ne_of_lost behind hthrown hlost hlong hchunk hrun hemitted
      · rintro ⟨-, hnone, -⟩
        apply hnone
        · rw [List.length_append]
          omega
        · rw [List.flatten_cons]
          exact List.mem_append_left _ hchunk
    · obtain ⟨hsame, hend⟩ := lines_append_chunk hlost hbuffer hbroken
      have hlines : completeLines (lost ++ s.buffer ++ (chunk :: chunks).flatten) =
          completeLines (s.buffer ++ chunk) ++
            completeLines (lost ++ unterminated (s.buffer ++ chunk) ++ chunks.flatten) := by
        rw [List.flatten_cons, ← List.append_assoc, completeLines_append, hsame, hend]
      rw [hlines, hsame, hend]
      have hrest := newline_notMem_unterminated (s.buffer ++ chunk)
      have hsplit := dropped_append_keepShort (unterminated (s.buffer ++ chunk))
      rw [← hsplit, List.mem_append, not_or] at hrest
      have hlost' : newline ∉ lost ++ dropped (unterminated (s.buffer ++ chunk)) := by
        rw [List.mem_append, not_or]
        exact ⟨hlost, hrest.1⟩
      have hdone := @ih { emitted := s.emitted ++ (completeLines (s.buffer ++ chunk)).map text
                          buffer := keepShort (unterminated (s.buffer ++ chunk)) }
        (lost ++ dropped (unterminated (s.buffer ++ chunk))) rfl hlost' hrest.2
        (length_keepShort_le _) (long_of_dropped hgone _)
        (by rw [List.mem_append, not_or]; exact ⟨hlost', hrest.2⟩)
      rw [List.append_assoc lost, hsplit] at hdone
      rw [run, step_text behind hthrown]
      split_ifs with hshort
      · rw [Option.bind_some]
        simp only [List.map_append, ← List.append_assoc] at hdone ⊢
        refine hdone.trans ⟨fun hunbroken => ⟨hshort, fun hlong => ?_, hunbroken⟩, fun h => h.2.2⟩
        have hne : lost ≠ [] := by
          rintro rfl
          rw [List.nil_append] at hlong
          omega
        have hchunk : newline ∉ chunk := fun h => hbroken ⟨hne, h⟩
        rw [List.flatten_cons, List.mem_append, not_or]
        refine ⟨hchunk, hunbroken.ended [] chunks rfl ?_⟩
        have hnone : newline ∉ lost ++ unterminated (s.buffer ++ chunk) := by
          rw [List.mem_append, not_or]
          exact ⟨hlost, newline_notMem_unterminated _⟩
        rw [List.flatten_nil, List.append_nil, (lines_of_notMem hnone).2, List.length_append]
        have hlost := hgone.resolve_left hne
        omega
      · apply iff_of_false
        · rintro ⟨t, hrun, -⟩
          cases hrun
        · exact fun h => hshort h.1

/-- The receiver emits nothing but texts of lines of the stream, of each line at most once and in
the order of the lines. -/
def EmitsLines (chunks : List Bytes) : Prop :=
  ∃ s, run (Receiver.step (parseTextProto behind)) {} chunks = some s ∧
    s.emitted.Sublist ((completeLines chunks.flatten).map text)

/-- What a receiver with the text protocol emits are lines exactly if the stream is unbroken: no
newline comes after a chunk that leaves more than `MAX_LINE_BYTES` bytes without one. -/
theorem emitsLines_iff (chunks : List Bytes) : EmitsLines behind chunks ↔ Unbroken [] chunks := by
  have hempty : newline ∉ ([] : Bytes) := List.not_mem_nil
  have hall := @run_text_iff behind {} [] chunks rfl hempty hempty (Nat.zero_le _) (Or.inl rfl)
  rw [List.nil_append, List.nil_append] at hall
  rw [← hall]
  constructor
  · rintro ⟨t, hrun, hemitted⟩
    refine ⟨t, hrun, hemitted.eq_of_length ?_⟩
    have hlength := length_emitted behind (s := {}) rfl hempty hrun
    rw [List.length_map, hlength]
    exact Nat.zero_add _
  · rintro ⟨t, hrun, hemitted⟩
    exact ⟨t, hrun, hemitted ▸ List.Sublist.refl _⟩

end Text

/-- Of a line of 4098 letters the last one comes in a chunk of its own, and is emitted as a line. -/
theorem fragment_emitted : ∃ s,
    run (Receiver.step (parseTextProto [])) {} [List.replicate 4097 97, [98, newline]] = some s ∧
      text [98] ∈ s.emitted ∧
      ∀ line ∈ completeLines [List.replicate 4097 97, [98, newline]].flatten,
        text [98] ≠ text line := by
  have hfirst : newline ∉ List.replicate 4097 (97 : UInt8) := by
    intro h
    exact absurd (List.eq_of_mem_replicate h) (by decide)
  have hline : newline ∉ List.replicate 4097 (97 : UInt8) ++ [98] := by
    rw [List.mem_append, not_or]
    exact ⟨hfirst, by decide⟩
  have hlong : MAX_LINE_BYTES < (List.replicate 4097 (97 : UInt8)).length := by
    rw [List.length_replicate]
    decide
  refine ⟨{ emitted := [text [98]] }, ?_, List.mem_singleton.mpr rfl, ?_⟩
  · have hchunk : ({} : Receiver).step (parseTextProto []) (List.replicate 4097 97) = some {} := by
      rw [step_text [] rfl, List.nil_append, (lines_of_notMem hfirst).1,
        (lines_of_notMem hfirst).2, keepShort, if_pos hlong, if_pos fun _ h => nomatch h]
      rfl
    rw [run, hchunk]
    rfl
  · have hstream : [List.replicate 4097 97, [98, newline]].flatten =
        List.replicate 4097 (97 : UInt8) ++ [98] ++ newline :: [] := by
      rw [List.flatten_cons, List.flatten_singleton, List.append_assoc]
      rfl
    rw [hstream, (lines_append_cons hline []).1]
    intro line hmem
    obtain rfl : line = List.replicate 4097 97 ++ [98] := List.mem_singleton.mp hmem
    exact fun h => text_append_ne hlong [98] h.symm

end Radapter.Wire.Line
