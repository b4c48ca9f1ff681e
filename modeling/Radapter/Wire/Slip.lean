import Radapter.Variant
import Radapter.Library.Splitter

/-!
# SLIP frames on byte streams

A `BinaryWorker` with slip framing appends what it reads to a buffer and cuts the buffer at every
END byte. `slipa::Read` removes the escapes of a segment, and the configured protocol parses the
result. An error in either step is reported and costs that segment only.

The length of a segment is converted to `unsigned` on its way to `slipa::Read`. The file
characterizes the streams on which the worker still emits the decodings of the segments between
the END bytes, for every way of cutting the stream into chunks.
-/

namespace Radapter.Wire.Slip

open Library

/-- `slipa::END`. -/
def END : UInt8 := 0xC0

/-- `slipa::ESC`. -/
def ESC : UInt8 := 0xDB

/-- `slipa::ESC_END`. -/
def ESC_END : UInt8 := 0xDC

/-- `slipa::ESC_ESC`. -/
def ESC_ESC : UInt8 := 0xDD

/-- `slipa::ReadErrors` other than `NoError`. -/
inductive ReadErrors where
  | UnterminatedEscape
  | InvalidEscape
  deriving DecidableEq, Repr

/-- The loop of `slipa::Read`: runs without ESC are passed on unchanged, here byte by byte, and
the byte after an ESC says what the pair stands for. -/
def readLoop : Bytes → Except ReadErrors Bytes
  | [] => .ok []
  | [b] => if b = ESC then .error .UnterminatedEscape else .ok [b]
  | b :: escaped :: rest =>
      if b = ESC then
        if escaped = ESC_END then (readLoop rest).map (END :: ·)
        else if escaped = ESC_ESC then (readLoop rest).map (ESC :: ·)
        else .error .InvalidEscape
      else (readLoop (escaped :: rest)).map (b :: ·)

/-- `slipa::Read`: the parts handed to `out`, concatenated. One trailing END is ignored. -/
def Read (msg : Bytes) : Except ReadErrors Bytes :=
  readLoop (if msg.getLast? = some END then msg.dropLast else msg)

/-- A protocol parser returns a value or throws; an error is the text of the exception. -/
abbrev ProtoParser := Bytes → Except String QVariant

/-- The `try` block of `parseSlipFrames`: the message appended to the result, or the text passed
to `Error`. -/
def parseSlipFrame (fromProto : ProtoParser) (src : Bytes) : Except String QVariant :=
  let parsed : Except String QVariant :=
    match Read src with
    | .error .UnterminatedEscape => .error "Error unpacking SLIP frame: Unterminated ESC"
    | .error .InvalidEscape => .error "Error unpacking SLIP frame: Invalid ESC"
    | .ok recv => fromProto recv
  parsed.mapError ("Error receiving msgpack: " ++ ·)

/-- `string_view(buffer.data(), unsigned(end))` for a segment of `end` bytes. -/
def cut (segment : Bytes) : Bytes := segment.take (segment.length % 2 ^ 32)

/-- One round of the loop of `parseSlipFrames`: the bytes handed to `slipa::Read` and the buffer
left, or `none` when the loop returns. -/
def slipStep (buffer : Bytes) : Option (Bytes × Bytes) :=
  match buffer.idxOf? END with
  | none => none
  | some i => some (buffer.take (i % 2 ^ 32), buffer.drop (i + 1))

/-- `parseSlipFrames`: what became of each segment, in the order of the loop, and the buffer left.
Every round removes a byte, so one round per byte and one to return are enough
(`parseSlipFrames_eq`). -/
def parseSlipFrames (fromProto : ProtoParser) (buffer : Bytes) :
    Option (List (Except String QVariant) × Bytes) :=
  (loop slipStep (buffer.length + 1) buffer).map
    (fun r => (r.1.map (parseSlipFrame fromProto), r.2))

/-- The worker over a whole stream: each chunk is appended to the buffer and `ReceiveBinary`
parses the frames in it. -/
def receiveChunks (fromProto : ProtoParser) :
    Bytes → List Bytes → Option (List (Except String QVariant) × Bytes)
  | buffer, [] => some ([], buffer)
  | buffer, chunk :: chunks => do
      let received ← parseSlipFrames fromProto (buffer ++ chunk)
      let later ← receiveChunks fromProto received.2 chunks
      some (received.1 ++ later.1, later.2)

/-- The messages `ReceiveBinary` emits with `SendMsg`: the segments that did not fail. -/
def emitted (outcomes : List (Except String QVariant)) : List QVariant :=
  outcomes.filterMap Except.toOption

/-- `parseMsgpackProto` over a MessagePack parser that returns a value with the number of bytes it
consumed. -/
def parseMsgpackProto (ParseMsgPackInPlace : Bytes → Except String (QVariant × ℕ)) :
    ProtoParser :=
  fun frame => do
    let res ← ParseMsgPackInPlace frame
    if res.2 ≠ frame.length then .error "Not whole msgpack consumed" else .ok res.1

/-! ## The stream as a sequence of segments -/

/-- The END-terminated segments of a stream. -/
def segments (stream : Bytes) : List Bytes := (stream.splitOn END).dropLast

/-- The bytes after the last END. -/
def afterEnd (stream : Bytes) : Bytes :=
  (stream.splitOn END).getLast (List.splitOn_ne_nil END stream)

/-- The decoding of a segment: none when an escape is invalid or the payload does not parse. -/
def decode (fromProto : ProtoParser) (segment : Bytes) : Option QVariant :=
  (Read segment).toOption.bind (fun payload => (fromProto payload).toOption)

/-- The worker emits the decodings of the segments in order, drops exactly the segments without a
decoding and keeps the bytes after the last END. -/
def Delivers (fromProto : ProtoParser) (chunks : List Bytes) : Prop :=
  ∃ outcomes, receiveChunks fromProto [] chunks = some (outcomes, afterEnd chunks.flatten) ∧
    outcomes.map Except.toOption = (segments chunks.flatten).map (decode fromProto) ∧
    emitted outcomes = (segments chunks.flatten).filterMap (decode fromProto)

/-! ## The loop follows the segments -/

/-- The loop of `parseSlipFrames` takes the segments off the buffer, each cut to its length
modulo `2 ^ 32`. -/
def slip : Splitter UInt8 Bytes := .delimited END cut

/-- A round of the loop is the splitting at END. -/
theorem slipStep_eq_split (buffer : Bytes) : slipStep buffer = slip.split buffer := by
  simp only [slipStep, slip, Splitter.delimited]
  cases hi : buffer.idxOf? END with
  | none => rfl
  | some i =>
    obtain ⟨hlt, -⟩ := List.idxOf?_eq_some_iff.mp hi
    have hmod : i % 2 ^ 32 ≤ i := Nat.mod_le i _
    simp only [cut, List.length_take, Nat.min_eq_left (Nat.le_of_lt hlt), List.take_take,
      Nat.min_eq_left hmod]

/-- `parseSlipFrames` returns, with the outcome of each segment and the bytes after the last
END. -/
theorem parseSlipFrames_eq (fromProto : ProtoParser) (buffer : Bytes) :
    parseSlipFrames fromProto buffer =
      some ((slip.drain buffer).1.map (parseSlipFrame fromProto), (slip.drain buffer).2) := by
  have hloop : loop slipStep (buffer.length + 1) buffer = some (slip.drain buffer) :=
    loop_eq_drain (P := fun _ => True) slip slipStep (fun xs _ => slipStep_eq_split xs)
      (fun _ _ _ _ _ => trivial) trivial
  rw [parseSlipFrames, hloop, Option.map_some]

/-- Chunk by chunk, the worker takes the segments off the buffer and the stream behind it. -/
theorem receiveChunks_eq (fromProto : ProtoParser) (buffer : Bytes) (chunks : List Bytes)
    (hbuffer : slip.split buffer = none) :
    receiveChunks fromProto buffer chunks =
      some ((slip.drain (buffer ++ chunks.flatten)).1.map (parseSlipFrame fromProto),
        (slip.drain (buffer ++ chunks.flatten)).2) := by
  induction chunks generalizing buffer with
  | nil => simp [receiveChunks, slip.drain_of_none hbuffer]
  | cons chunk chunks ih =>
    rw [receiveChunks, parseSlipFrames_eq]
    simp only [Option.bind_eq_bind, Option.bind_some]
    rw [ih _ (slip.split_drain (buffer ++ chunk)), List.flatten_cons, ← List.append_assoc,
      slip.drain_append (buffer ++ chunk) chunks.flatten]
    simp only [Option.bind_some, List.map_append]

/-- The worker over a whole stream. -/
theorem receiveChunks_stream (fromProto : ProtoParser) (chunks : List Bytes) :
    receiveChunks fromProto [] chunks =
      some ((segments chunks.flatten).map (fun s => parseSlipFrame fromProto (cut s)),
        afterEnd chunks.flatten) := by
  rw [receiveChunks_eq fromProto [] chunks rfl, List.nil_append]
  simp only [slip, Splitter.delimited_drain, List.map_map]
  rfl

/-- What becomes of the bytes handed to `slipa::Read` is their decoding. -/
theorem parseSlipFrame_toOption (fromProto : ProtoParser) (src : Bytes) :
    (parseSlipFrame fromProto src).toOption = decode fromProto src := by
  have hmap (e : Except String QVariant) (f : String → String) :
      (e.mapError f).toOption = e.toOption := by cases e <;> rfl
  simp only [parseSlipFrame, decode, hmap]
  cases Read src with
  | error e => cases e <;> rfl
  | ok payload => rfl

/-! ## Reading a cut segment -/

/-- A byte other than ESC is passed on. -/
theorem readLoop_cons {b : UInt8} (hb : b ≠ ESC) (rest : Bytes) :
    readLoop (b :: rest) = (readLoop rest).map (b :: ·) := by
  cases rest with
  | nil => simp [readLoop, hb, Except.map]
  | cons c rest => simp [readLoop, hb]

/-- Bytes put in front of a result one after the other. -/
private theorem map_map (r : Except ReadErrors Bytes) (b : UInt8) (a : Bytes) :
    (r.map (a ++ ·)).map (b :: ·) = r.map ((b :: a) ++ ·) := by
  cases r <;> rfl

/-- Reading goes on behind a part that can be read. -/
theorem readLoop_append {xs a : Bytes} (h : readLoop xs = .ok a) (ys : Bytes) :
    readLoop (xs ++ ys) = (readLoop ys).map (a ++ ·) := by
  induction xs using readLoop.induct generalizing a with
  | case1 =>
    cases h
    cases hys : readLoop ys <;> simp [hys, Except.map]
  | case2 => simp [readLoop] at h
  | case3 b hb =>
    have ha : [b] = a := by simpa [readLoop, hb] using h
    subst ha
    rw [List.singleton_append, readLoop_cons hb]
    rfl
  | case4 rest ih =>
    cases hrest : readLoop rest with
    | error e => simp [readLoop, hrest, Except.map] at h
    | ok tail =>
      have ha : END :: tail = a := by simpa [readLoop, hrest, Except.map] using h
      subst ha
      simp [readLoop, ih hrest, map_map]
  | case5 rest hesc ih =>
    cases hrest : readLoop rest with
    | error e => simp [readLoop, hesc, hrest, Except.map] at h
    | ok tail =>
      have ha : ESC :: tail = a := by simpa [readLoop, hesc, hrest, Except.map] using h
      subst ha
      simp [readLoop, hesc, ih hrest, map_map]
  | case6 escaped rest hend hesc => simp [readLoop, hend, hesc] at h
  | case7 b c rest hb ih =>
    rw [readLoop_cons hb] at h
    cases hrest : readLoop (c :: rest) with
    | error e => simp [hrest, Except.map] at h
    | ok tail =>
      have ha : b :: tail = a := by simpa [hrest, Except.map] using h
      subst ha
      rw [List.cons_append, readLoop_cons hb, ih hrest, map_map]

/-- Something is read from a segment that is not empty. -/
theorem readLoop_ne_nil {xs a : Bytes} (hxs : xs ≠ []) (h : readLoop xs = .ok a) : a ≠ [] := by
  rintro rfl
  have hcons (r : Except ReadErrors Bytes) (b : UInt8) : r.map (b :: ·) ≠ .ok [] := by
    cases r <;> simp [Except.map]
  cases xs using readLoop.fun_cases <;> simp_all [readLoop]

/-- `slipa::Read` refuses the bytes: an ESC stands at the end or before a byte it cannot
escape. -/
def Refused (src : Bytes) : Prop := (Read src).toOption = none

instance (src : Bytes) : Decidable (Refused src) := inferInstanceAs (Decidable (_ = none))

/-- The conversion of its length to `unsigned` does not matter for a segment: it is shorter than
`2 ^ 32` bytes, or refused as a whole and as it is cut. -/
def CutHarmless (segment : Bytes) : Prop :=
  segment.length < 2 ^ 32 ∨ Refused segment ∧ Refused (cut segment)

/-- Without an END the whole of a segment is read. -/
theorem Read_of_not_mem {msg : Bytes} (h : END ∉ msg) : Read msg = readLoop msg := by
  have hlast : msg.getLast? ≠ some END := fun hlast => h (List.mem_of_getLast? hlast)
  rw [Read, if_neg hlast]

/-- Short segments are not cut. -/
theorem cut_of_lt {segment : Bytes} (h : segment.length < 2 ^ 32) : cut segment = segment := by
  rw [cut, Nat.mod_eq_of_lt h, List.take_length]

/-- A segment reads the same cut as whole exactly when the cut is harmless. -/
theorem Read_cut_iff {segment : Bytes} (h : END ∉ segment) :
    (Read (cut segment)).toOption = (Read segment).toOption ↔ CutHarmless segment := by
  constructor
  · intro hread
    by_contra hharm
    simp only [CutHarmless, not_or, not_lt] at hharm
    obtain ⟨hlen, hrefused⟩ := hharm
    cases hcut : Read (cut segment) with
    | error e =>
      rw [hcut] at hread
      exact hrefused ⟨hread.symm, by rw [Refused, hcut]; rfl⟩
    | ok a =>
      have hsplit : cut segment ++ segment.drop (segment.length % 2 ^ 32) = segment :=
        List.take_append_drop _ _
      have hmod : segment.length % 2 ^ 32 < 2 ^ 32 := Nat.mod_lt _ (by decide)
      have hne : segment.drop (segment.length % 2 ^ 32) ≠ [] := by
        intro hnil
        have hlen' := congrArg List.length hnil
        simp only [List.length_drop, List.length_nil] at hlen'
        omega
      have hEND : END ∉ cut segment := fun hmem => h (List.mem_of_mem_take hmem)
      rw [Read_of_not_mem hEND] at hcut
      have happ := readLoop_append hcut (segment.drop (segment.length % 2 ^ 32))
      rw [hsplit] at happ
      rw [Read_of_not_mem hEND, Read_of_not_mem h, hcut, happ] at hread
      cases hrest : readLoop (segment.drop (segment.length % 2 ^ 32)) with
      | error e =>
        rw [hrest] at hread
        simp [Except.map, Except.toOption] at hread
      | ok b =>
        rw [hrest] at hread
        apply readLoop_ne_nil hne hrest
        simpa [Except.map, Except.toOption] using hread
  · rintro (hlt | ⟨hwhole, hcut⟩)
    · rw [cut_of_lt hlt]
    · exact hcut.trans hwhole.symm

/-! ## The worker on a stream -/

/-- No segment of a stream has an END. -/
theorem END_not_mem_of_mem_segments {stream segment : Bytes} (h : segment ∈ segments stream) :
    END ∉ segment :=
  Splitter.not_mem_of_mem_splitOn ((List.dropLast_sublist _).subset h)

/-- With a given protocol parser the worker delivers the segments of a stream when each of them
decodes the same cut as whole. -/
theorem delivers_iff_decode (fromProto : ProtoParser) (chunks : List Bytes) :
    Delivers fromProto chunks ↔
      ∀ segment ∈ segments chunks.flatten,
        decode fromProto (cut segment) = decode fromProto segment := by
  simp only [Delivers, receiveChunks_stream, Option.some.injEq, Prod.mk.injEq, and_true,
    exists_eq_left', emitted, List.map_map, List.filterMap_map, Function.comp_def,
    parseSlipFrame_toOption]
  constructor
  · rintro ⟨hmap, -⟩
    exact List.map_inj_left.mp hmap
  · intro h
    exact ⟨List.map_congr_left h, List.filterMap_congr h⟩

/-- For every protocol parser the worker delivers the segments of a stream, however the stream is
cut into chunks, exactly when the conversion of their lengths is harmless. -/
theorem delivers_iff (chunks : List Bytes) :
    (∀ fromProto, Delivers fromProto chunks) ↔
      ∀ segment ∈ segments chunks.flatten, CutHarmless segment := by
  constructor
  · intro h segment hsegment
    -- A protocol that hands on the payload shows whether `slipa::Read` saw all of it.
    have hbytes := (delivers_iff_decode (fun payload => .ok (.leaf (.byteArray payload))) chunks).mp
      (h _) segment hsegment
    apply (Read_cut_iff (END_not_mem_of_mem_segments hsegment)).mp
    simp only [decode] at hbytes
    cases hc : (Read (cut segment)).toOption <;> cases hw : (Read segment).toOption <;>
      simp_all [Except.toOption]
  · intro h fromProto
    refine (delivers_iff_decode fromProto chunks).mpr fun segment hsegment => ?_
    rw [decode, decode,
      (Read_cut_iff (END_not_mem_of_mem_segments hsegment)).mpr (h segment hsegment)]

/-- The MessagePack parser on a positive fixint: one byte is consumed. -/
def parseFixint : Bytes → Except String (QVariant × ℕ)
  | [] => .error "unexpected end"
  | b :: _ =>
      if b < 0x80 then .ok (.leaf (.longlong (.ofNat 64 b.toNat)), 1) else .error "not a fixint"

/-- The MessagePack dumper on a small natural number: a positive fixint. -/
def dumpFixint : QVariant → Bytes
  | .leaf (.longlong n) => [UInt8.ofNat n.toNat]
  | _ => []

/-- A segment of fives decodes only if it is one byte. -/
private theorem decode_fives (n : ℕ) :
    decode (parseMsgpackProto parseFixint) (List.replicate (n + 1) 5) =
      if n = 0 then some (.leaf (.longlong 5)) else none := by
  have hread (k : ℕ) : readLoop (List.replicate k 5) = .ok (List.replicate k 5) := by
    induction k with
    | zero => rfl
    | succ k ih => rw [List.replicate_succ, readLoop_cons (by decide), ih]; rfl
  have hend : END ∉ List.replicate (n + 1) (5 : UInt8) := by simp [END]
  rw [decode, Read_of_not_mem hend, hread]
  by_cases hn : n = 0
  · subst hn
    rfl
  · simp [Except.toOption, parseMsgpackProto, parseFixint, List.replicate_succ, hn, bind,
      Except.bind]

/-- So many fives that the cut leaves one are delivered as a message. -/
private theorem not_delivers_fives {n : ℕ} (hn : n ≠ 0) (hmod : (n + 1) % 2 ^ 32 = 1) :
    ¬ Delivers (parseMsgpackProto parseFixint) [List.replicate (n + 1) 5 ++ [END]] := by
  intro h
  have hend : END ∉ List.replicate (n + 1) (5 : UInt8) := by simp [END]
  have hsegments : segments (List.replicate (n + 1) 5 ++ [END]) = [List.replicate (n + 1) 5] := by
    rw [segments, List.splitOn_append_cons_self_of_not_mem hend]
    rfl
  have hcut : cut (List.replicate (n + 1) 5) = List.replicate (0 + 1) 5 := by
    rw [cut, List.length_replicate, List.take_replicate, hmod, Nat.min_eq_left (by omega)]
  have hdecode := (delivers_iff_decode _ _).mp h (List.replicate (n + 1) 5) (by
    simp only [List.flatten_cons, List.flatten_nil, List.append_nil, hsegments,
      List.mem_singleton])
  rw [hcut, decode_fives, decode_fives, if_pos rfl, if_neg hn] at hdecode
  cases hdecode

/-- A segment of `2 ^ 32 + 1` bytes is no MessagePack value, but its first byte is: the worker
emits it where the segment has to be dropped. -/
theorem not_delivers_oversized :
    ¬ Delivers (parseMsgpackProto parseFixint) [List.replicate (2 ^ 32 + 1) 5 ++ [END]] :=
  not_delivers_fives (by decide) (by decide)

end Radapter.Wire.Slip
