import Mathlib.Data.List.Forall2
import Radapter.Library.Results
import Radapter.Library.Runs
import Radapter.Wire.Peer

/-!
# Line frames

A `BinaryWorker` with line framing ends every payload with a newline and refuses payloads that have
one. The receiver cuts its buffer at the newlines, takes a carriage return off the end of a line,
and hands the rest to the protocol. An error of the protocol is not caught. A buffer of more than
`MAX_LINE_BYTES` without a newline is dropped.

The sender takes no notice of carriage returns, so a payload that ends in one arrives without it.
-/

namespace Radapter.Wire.Line

open Library Slip

/-- The byte `'\n'`. -/
def newline : UInt8 := 10

/-- The byte `'\r'`. -/
def carriageReturn : UInt8 := 13

/-- `MAX_LINE_BYTES`. -/
def MAX_LINE_BYTES : ℕ := 4096

/-- `line.chop(1)` for a line that ends with a carriage return. -/
def chopReturn (line : Bytes) : Bytes :=
  if line.getLast? = some carriageReturn then line.dropLast else line

/-- What the loop leaves in a buffer without a newline. -/
def keepShort (buffer : Bytes) : Bytes := if MAX_LINE_BYTES < buffer.length then [] else buffer

/-- The loop of `parseLineFrames`, for at most a number of rounds: the messages, or the text of the
exception, and the buffer left. `left` and `mid` take what they get for a position from `int(end)`.
-/
def parseLineLoop (fromProto : ProtoParser) :
    ℕ → Bytes → Option (Except String (List QVariant) × Bytes)
  | 0, _ => none
  | n + 1, buffer =>
      match buffer.idxOf? newline with
      | none => some (.ok [], keepShort buffer)
      | some i =>
          let line := buffer.take (asInt i).toNat
          let buffer := buffer.drop (asInt i + 1).toNat
          match fromProto (chopReturn line) with
          | .error e => some (.error e, buffer)
          | .ok v => (parseLineLoop fromProto n buffer).map fun r => (r.1.map (v :: ·), r.2)

/-- `parseLineFrames`: a round removes a byte, or the loop does not end. -/
def parseLineFrames (fromProto : ProtoParser) (buffer : Bytes) :
    Option (Except String (List QVariant) × Bytes) :=
  parseLineLoop fromProto (buffer.length + 1) buffer

/-- A worker that receives: what it has emitted, its buffer, and the exception that has ended it. -/
structure Receiver where
  emitted : List QVariant := []
  buffer : Bytes := []
  thrown : Option String := none

/-- A chunk is appended to the buffer, and `ReceiveBinary` emits the messages. An exception leaves
the event loop. -/
def Receiver.step (fromProto : ProtoParser) (s : Receiver) (chunk : Bytes) : Option Receiver :=
  if s.thrown.isSome then none
  else do
    let (result, buffer) ← parseLineFrames fromProto (s.buffer ++ chunk)
    match result with
    | .error e => return { s with buffer := buffer, thrown := some e }
    | .ok messages => return { s with emitted := s.emitted ++ messages, buffer := buffer }

section Worker

variable (DumpMsgPack : QVariant → Except String Bytes)
variable (ParseMsgPackInPlace : Bytes → Except String (QVariant × ℕ))
variable (behind : Bytes) (config : BinaryConfig)

/-- `dumpLineFrames`. -/
def dumpLineFrames (msg : QVariant) : Except String Bytes := do
  let wrapped ← protoDumper DumpMsgPack config msg
  if newline ∈ wrapped then
    .error "line framing cannot send a payload with a newline in it"
  else .ok (wrapped ++ [newline])

/-- `BinaryWorker::OnMsg`: what is handed to `SendBinary`. -/
def OnMsg (msg : QVariant) : Except String Bytes := dumpLineFrames DumpMsgPack config msg

end Worker

/-! ## The loop follows the lines -/

/-- The lines of a buffer. -/
def lines : Splitter UInt8 Bytes := .delimited newline id

/-- The loop finds no line where there is no newline. -/
theorem split_eq_none {buffer : Bytes} (h : lines.split buffer = none) :
    buffer.idxOf? newline = none := by
  simp only [lines, Splitter.delimited] at h
  split at h
  · assumption
  · cases h

/-- A line ends in front of the first newline, which is removed with it. -/
theorem split_eq_some {buffer line rest : Bytes} (h : lines.split buffer = some (line, rest)) :
    ∃ i, buffer.idxOf? newline = some i ∧ line.length = i ∧ line = buffer.take i ∧
      rest = buffer.drop (i + 1) := by
  simp only [lines, Splitter.delimited] at h
  split at h
  · cases h
  · next i hi =>
    obtain ⟨hlt, -⟩ := List.idxOf?_eq_some_iff.mp hi
    cases h
    exact ⟨i, hi, by rw [id, List.length_take, Nat.min_eq_left (Nat.le_of_lt hlt)], rfl, rfl⟩

/-- The protocol reads the message from the line. -/
def Parses (fromProto : ProtoParser) (line : Bytes) (message : QVariant) : Prop :=
  fromProto (chopReturn line) = .ok message

variable {fromProto : ProtoParser}

/-- One round of the loop. -/
theorem parseLineLoop_of_split {n : ℕ} {buffer line rest : Bytes}
    (h : lines.split buffer = some (line, rest)) (hline : line.length < 2 ^ 31) :
    parseLineLoop fromProto (n + 1) buffer =
      match fromProto (chopReturn line) with
      | .error e => some (.error e, rest)
      | .ok v => (parseLineLoop fromProto n rest).map fun r => (r.1.map (v :: ·), r.2) := by
  obtain ⟨i, hi, hlength, rfl, rfl⟩ := split_eq_some h
  have hint : asInt i = i := asInt_of_lt (by omega)
  simp only [parseLineLoop, hi, hint, Int.toNat_natCast, Int.toNat_natCast_add_one]

/-- Short lines are handed to the protocol in their order: the loop returns messages exactly if
the protocol reads all of them. -/
theorem parseLineLoop_eq_ok {n : ℕ} {buffer : Bytes} (hn : buffer.length < n)
    (hshort : ∀ line ∈ (lines.drain buffer).1, line.length < 2 ^ 31) {messages : List QVariant}
    {rest : Bytes} : parseLineLoop fromProto n buffer = some (.ok messages, rest) ↔
      List.Forall₂ (Parses fromProto) (lines.drain buffer).1 messages ∧
        rest = keepShort (lines.drain buffer).2 := by
  induction buffer using lines.drain_induction generalizing n messages with
  | none buffer h =>
    obtain ⟨n, rfl⟩ : ∃ k, n = k + 1 := ⟨n - 1, by omega⟩
    rw [parseLineLoop, split_eq_none h, lines.drain_of_none h]
    simp only [Option.some.injEq, Prod.mk.injEq, Except.ok.injEq, List.forall₂_nil_left_iff,
      eq_comm]
  | some buffer line tail h ih =>
    obtain ⟨n, rfl⟩ : ∃ k, n = k + 1 := ⟨n - 1, by omega⟩
    have hlt := lines.shorter h
    rw [lines.drain_of_some h] at hshort ⊢
    obtain ⟨hline, htail⟩ := List.forall_mem_cons.mp hshort
    rw [parseLineLoop_of_split h hline]
    cases hparse : fromProto (chopReturn line) with
    | error e =>
      simp only [Option.some.injEq, Prod.mk.injEq, reduceCtorEq, false_and, false_iff, not_and]
      intro hall
      cases hall with
      | cons hfirst _ =>
        rw [Parses, hparse] at hfirst
        cases hfirst
    | ok v =>
      rw [Option.map_eq_some_iff]
      constructor
      · rintro ⟨⟨result, left⟩, hloop, heq⟩
        simp only [Prod.mk.injEq] at heq
        obtain ⟨hresult, rfl⟩ := heq
        cases result with
        | error e => cases hresult
        | ok more =>
          cases hresult
          obtain ⟨hall, hleft⟩ := (ih (by omega) htail).mp hloop
          exact ⟨List.Forall₂.cons hparse hall, hleft⟩
      · rintro ⟨hall, hrest⟩
        cases hall with
        | @cons _ w _ more hfirst hall =>
          have hloop := (ih (n := n) (by omega) htail).mpr ⟨hall, hrest⟩
          have hv : v = w := Except.ok.inj (hparse.symm.trans hfirst)
          exact ⟨_, hloop, by rw [hv]; rfl⟩

/-- `parseLineFrames` on short lines. -/
theorem parseLineFrames_eq_ok {buffer : Bytes}
    (hshort : ∀ line ∈ (lines.drain buffer).1, line.length < 2 ^ 31) {messages : List QVariant}
    {rest : Bytes} : parseLineFrames fromProto buffer = some (.ok messages, rest) ↔
      List.Forall₂ (Parses fromProto) (lines.drain buffer).1 messages ∧
        rest = keepShort (lines.drain buffer).2 :=
  parseLineLoop_eq_ok (Nat.lt_succ_self _) hshort

/-! ## The receiver on a stream -/

/-- The lines of a stream, and what follows the last newline, are no longer than the limit. -/
structure ShortLines (stream : Bytes) : Prop where
  line : ∀ line ∈ (lines.drain stream).1, line.length ≤ MAX_LINE_BYTES
  last : (lines.drain stream).2.length ≤ MAX_LINE_BYTES

/-- The beginning of a line is no longer than the line. -/
theorem ShortLines.length_le {front back : Bytes} (h : ShortLines (front ++ back))
    (hfront : lines.split front = none) : front.length ≤ MAX_LINE_BYTES := by
  cases hsplit : lines.split (front ++ back) with
  | none =>
    have hlast := h.last
    rw [lines.drain_of_none hsplit, List.length_append] at hlast
    omega
  | some r =>
    obtain ⟨line, rest⟩ := r
    obtain ⟨i, hi, hlength, -⟩ := split_eq_some hsplit
    have hline := h.line line (by rw [lines.drain_of_some hsplit]; exact List.mem_cons_self)
    -- The newline is not in the front, so that the line reaches over all of it.
    have hnone := List.idxOf?_eq_none_iff.mp (split_eq_none hfront)
    obtain ⟨hlt, hat, -⟩ := List.idxOf?_eq_some_iff.mp hi
    by_contra hlong
    have hinside : i < front.length := by omega
    rw [List.getElem_append_left hinside] at hat
    exact hnone (hat ▸ List.getElem_mem hinside)

/-- After a part of a stream the rest is still one of short lines. -/
theorem ShortLines.of_append {front back : Bytes} (h : ShortLines (front ++ back)) :
    ShortLines ((lines.drain front).2 ++ back) := by
  obtain ⟨hline, hlast⟩ := h
  rw [lines.drain_append] at hline hlast
  exact ⟨fun line hmem => hline line (List.mem_append_right _ hmem), hlast⟩

/-- What is related to two lists in turn is related to each. -/
theorem forall₂_append_left {α β : Type*} {R : α → β → Prop} {front back : List α} {l : List β}
    (h : List.Forall₂ R (front ++ back) l) :
    ∃ first second, l = first ++ second ∧ List.Forall₂ R front first ∧
      List.Forall₂ R back second := by
  induction front generalizing l with
  | nil => exact ⟨[], l, rfl, List.Forall₂.nil, h⟩
  | cons a front ih =>
    cases h with
    | @cons _ b _ l hab h =>
      obtain ⟨first, second, rfl, hfirst, hsecond⟩ := ih h
      exact ⟨b :: first, second, rfl, List.Forall₂.cons hab hfirst, hsecond⟩

/-- A receiver emits the messages of all lines, however the stream is cut, if the protocol reads
them and they are short. -/
theorem run_of_parses {s : Receiver} (hthrown : s.thrown = none)
    (hbuffer : lines.split s.buffer = none) {chunks : List Bytes}
    (hshort : ShortLines (s.buffer ++ chunks.flatten)) {messages : List QVariant}
    (hparses : List.Forall₂ (Parses fromProto) (lines.drain (s.buffer ++ chunks.flatten)).1
      messages) : run (Receiver.step fromProto) s chunks =
        some { emitted := s.emitted ++ messages
               buffer := (lines.drain (s.buffer ++ chunks.flatten)).2 } := by
  induction chunks generalizing s messages with
  | nil =>
    obtain ⟨emitted, buffer, thrown⟩ := s
    subst hthrown
    rw [List.flatten_nil, List.append_nil, lines.drain_of_none hbuffer] at hparses ⊢
    cases hparses
    rw [List.append_nil]
    rfl
  | cons chunk chunks ih =>
    rw [List.flatten_cons, ← List.append_assoc] at hshort hparses ⊢
    have hnone := lines.split_drain (s.buffer ++ chunk)
    have hrest := hshort.of_append
    have hfits := hrest.length_le hnone
    have hlines : ∀ line ∈ (lines.drain (s.buffer ++ chunk)).1, line.length < 2 ^ 31 := by
      intro line hline
      have hmax := hshort.line line (by
        rw [lines.drain_append]
        exact List.mem_append_left _ hline)
      exact Nat.lt_of_le_of_lt hmax (by decide)
    rw [lines.drain_append] at hparses ⊢
    obtain ⟨first, second, rfl, hfirst, hsecond⟩ := forall₂_append_left hparses
    have hkept : keepShort (lines.drain (s.buffer ++ chunk)).2 =
        (lines.drain (s.buffer ++ chunk)).2 := if_neg (Nat.not_lt.mpr hfits)
    have hframes : parseLineFrames fromProto (s.buffer ++ chunk) =
        some (.ok first, (lines.drain (s.buffer ++ chunk)).2) :=
      (parseLineFrames_eq_ok hlines).mpr ⟨hfirst, hkept.symm⟩
    have hstep : s.step fromProto chunk =
        some { emitted := s.emitted ++ first
               buffer := (lines.drain (s.buffer ++ chunk)).2 } := by
      simp only [Receiver.step, hthrown, Option.isSome_none, Bool.false_eq_true, if_false, hframes]
      rfl
    rw [run, hstep, Option.bind_some, ih rfl hnone hrest hsecond, List.append_assoc]

/-! ## Frames -/

/-- A payload that a line can carry: it has no newline and is short. -/
def Framable (payload : Bytes) : Prop := newline ∉ payload ∧ payload.length ≤ MAX_LINE_BYTES

instance (payload : Bytes) : Decidable (Framable payload) := inferInstanceAs (Decidable (_ ∧ _))

/-- The frames of payloads one after the other. -/
def frames (payloads : List Bytes) : Bytes := payloads.flatMap (· ++ [newline])

/-- The lines of the frames are the payloads. -/
theorem drain_frames {payloads : List Bytes} (h : ∀ payload ∈ payloads, Framable payload) :
    lines.drain (frames payloads) = (payloads, []) := by
  induction payloads with
  | nil => rfl
  | cons payload rest ih =>
    obtain ⟨hpayload, hrest⟩ := List.forall_mem_cons.mp h
    have hframes : frames (payload :: rest) = payload ++ newline :: frames rest := by
      rw [frames, List.flatMap_cons, List.append_assoc, List.singleton_append]
      rfl
    have hsplit : lines.split (payload ++ newline :: frames rest) = some (payload, frames rest) :=
      Splitter.delimited_split newline id hpayload.1 (frames rest)
    rw [hframes, lines.drain_of_some hsplit, ih hrest]

/-- Frames of payloads that a line can carry are short lines. -/
theorem shortLines_frames {payloads : List Bytes} (h : ∀ payload ∈ payloads, Framable payload) :
    ShortLines (frames payloads) := by
  constructor
  · rw [drain_frames h]
    exact fun payload hpayload => (h payload hpayload).2
  · rw [drain_frames h]
    exact Nat.zero_le _

/-- A receiver that starts with an empty buffer emits these messages and no others, however the
bytes are cut. -/
def Arrives (fromProto : ProtoParser) (messages : List QVariant) (bytes : Bytes) : Prop :=
  ∀ chunks : List Bytes, chunks.flatten = bytes →
    ∃ s, run (Receiver.step fromProto) {} chunks = some s ∧ s.emitted = messages

/-- The frames arrive exactly if the protocol reads the message from each payload. -/
theorem arrives_iff_parses {payloads : List Bytes} (h : ∀ payload ∈ payloads, Framable payload)
    {messages : List QVariant} (hlength : messages.length = payloads.length) :
    Arrives fromProto messages (frames payloads) ↔
      List.Forall₂ (Parses fromProto) payloads messages := by
  have hdrain := drain_frames h
  constructor
  · intro harrives
    obtain ⟨s, hrun, rfl⟩ := harrives [frames payloads] (List.flatten_singleton ..)
    obtain ⟨t, hstep, ht⟩ := Option.bind_eq_some_iff.mp hrun
    cases ht
    obtain ⟨⟨result, buffer⟩, hframes, hresult⟩ := Option.bind_eq_some_iff.mp hstep
    have hshort : ∀ line ∈ (lines.drain (frames payloads)).1, line.length < 2 ^ 31 :=
      fun line hline => Nat.lt_of_le_of_lt ((shortLines_frames h).line line hline) (by decide)
    cases result with
    | ok messages =>
      cases hresult
      have hparses := ((parseLineFrames_eq_ok hshort).mp hframes).1
      rw [hdrain] at hparses
      exact hparses
    | error e =>
      -- Nothing was emitted, so there was nothing to send.
      cases hresult
      rw [List.eq_nil_of_length_eq_zero hlength.symm]
      exact List.Forall₂.nil
  · intro hparses chunks hchunks
    have hstream : ({} : Receiver).buffer ++ chunks.flatten = frames payloads := hchunks
    have hshort : ShortLines (({} : Receiver).buffer ++ chunks.flatten) := by
      rw [hstream]
      exact shortLines_frames h
    have hall : List.Forall₂ (Parses fromProto)
        (lines.drain (({} : Receiver).buffer ++ chunks.flatten)).1 messages := by
      rw [hstream, hdrain]
      exact hparses
    exact ⟨_, run_of_parses rfl rfl hshort hall, rfl⟩

/-! ## Payloads that end in a carriage return -/

/-- A carriage return at the end is removed. -/
theorem chopReturn_concat (front : Bytes) : chopReturn (front ++ [carriageReturn]) = front := by
  rw [chopReturn, List.getLast?_concat, if_pos rfl, List.dropLast_concat]

/-- Any other line is left as it is. -/
theorem chopReturn_of_ne {payload : Bytes} (h : payload.getLast? ≠ some carriageReturn) :
    chopReturn payload = payload := if_neg h

/-- The last byte of a sequence of several has its high bit set. -/
theorem encodePoint_of_getLast? {c : ℕ} {b : UInt8} (hb : b.toNat < 128)
    (h : (encodePoint c).getLast? = some b) : encodePoint c = [b] := by
  have hcontinued : b ≠ UInt8.ofNat (0x80 + c % 64) := by
    rintro rfl
    rw [UInt8.toNat_ofNat'] at hb
    omega
  unfold encodePoint at h ⊢
  split_ifs at h ⊢ <;> simp only [List.getLast?_cons_cons, List.getLast?_singleton,
    Option.some.injEq] at h
  · rw [h]
  · exact absurd h.symm hcontinued
  · exact absurd h.symm hcontinued
  · exact absurd h.symm hcontinued

/-- Without the carriage return at its end a text is read as another text. -/
theorem fromUtf8_front_ne {s : QString} {front : Bytes}
    (h : toStdString s = front ++ [carriageReturn]) : fromUtf8 front ≠ s := by
  intro hread
  have hvalid : validUtf16 s = true := by
    rw [← hread]
    exact validUtf16_fromUtf8 _
  obtain ⟨points, hpoints, rfl⟩ := exists_points hvalid
  rw [toStdString_ofPoints hpoints] at h
  cases points using List.reverseRecOn with
  | nil => simp at h
  | append_singleton points c =>
    rw [List.flatMap_append, List.flatMap_singleton] at h
    have hlast : (encodePoint c).getLast? = some carriageReturn := by
      have hgetLast := congrArg List.getLast? h
      rwa [List.getLast?_append_of_ne_nil _ (encodePoint_ne_nil c), List.getLast?_concat]
        at hgetLast
    rw [encodePoint_of_getLast? (by decide) hlast] at h
    have hinit : ∀ c ∈ points, IsScalar c := fun c hc => hpoints c (List.mem_append_left _ hc)
    rw [← List.append_cancel_right h, fromUtf8_points hinit] at hread
    have hunits : (utf16Point c).length ≠ 0 := by
      unfold utf16Point
      split_ifs <;> simp
    have hlength := congrArg List.length hread
    rw [ofPoints, ofPoints, List.flatMap_append, List.flatMap_singleton, List.length_append]
      at hlength
    split_ifs at hlength
    · rw [List.length_tail] at hlength
      omega
    · omega

/-! ## What arrives -/

/-- What follows a complete value in the input makes no difference to the codec. -/
def SelfDelimiting (ParseMsgPackInPlace : Bytes → Except String (QVariant × ℕ)) : Prop :=
  ∀ bytes tail r, ParseMsgPackInPlace bytes = .ok r → ParseMsgPackInPlace (bytes ++ tail) = .ok r

/-- A message with its payload and its frame. -/
structure Transmission where
  msg : QVariant
  payload : Bytes
  frame : Bytes

/-- `OnMsg` accepts the message, the payload is no longer than a line may be, and the codec reads
the message back from it. -/
structure Transmission.Sent (DumpMsgPack : QVariant → Except String Bytes)
    (ParseMsgPackInPlace : Bytes → Except String (QVariant × ℕ)) (config : BinaryConfig)
    (t : Transmission) : Prop where
  dumped : protoDumper DumpMsgPack config t.msg = .ok t.payload
  framed : OnMsg DumpMsgPack config t.msg = .ok t.frame
  short : t.payload.length ≤ MAX_LINE_BYTES
  codec : config.protocol = .msgpack → ParseMsgPackInPlace t.payload = .ok (t.msg, t.payload.length)

/-- The payload does not end in a carriage return, and a text can be sent as UTF-8. -/
def Transmission.Carried (config : BinaryConfig) (t : Transmission) : Prop :=
  t.payload.getLast? ≠ some carriageReturn ∧ (config.protocol = .text → TextKept t.msg)

section Worker

variable {DumpMsgPack : QVariant → Except String Bytes}
variable {ParseMsgPackInPlace : Bytes → Except String (QVariant × ℕ)}
variable {behind : Bytes} {config : BinaryConfig} {t : Transmission}

/-- The frame of what was sent is its payload, which has no newline, and a newline. -/
theorem Transmission.Sent.frame_eq (h : t.Sent DumpMsgPack ParseMsgPackInPlace config) :
    newline ∉ t.payload ∧ t.frame = t.payload ++ [newline] := by
  have hframed := h.framed
  simp only [OnMsg, dumpLineFrames, h.dumped, bind, Except.bind] at hframed
  split at hframed
  · cases hframed
  · next hnewline => exact ⟨hnewline, (Except.ok.inj hframed).symm⟩

/-- The codec reads a message from its line exactly if the payload does not end in a carriage
return. -/
theorem parses_msgpack_iff (hself : SelfDelimiting ParseMsgPackInPlace) {msg : QVariant}
    {payload : Bytes} (hread : ParseMsgPackInPlace payload = .ok (msg, payload.length)) :
    Parses (parseMsgpackProto ParseMsgPackInPlace) payload msg ↔
      payload.getLast? ≠ some carriageReturn := by
  constructor
  · intro hparses hlast
    obtain ⟨front, rfl⟩ := List.getLast?_eq_some_iff.mp hlast
    rw [Parses, chopReturn_concat] at hparses
    obtain ⟨⟨v, n⟩, hfront, hwhole⟩ := bind_eq_ok.mp hparses
    split_ifs at hwhole with hn
    have hbehind := hself front [carriageReturn] (v, n) hfront
    rw [hread] at hbehind
    have hlength : (front ++ [carriageReturn]).length = n :=
      congrArg Prod.snd (Except.ok.inj hbehind)
    rw [List.length_append, List.length_singleton] at hlength
    exact hn (by simp only; omega)
  · intro hlast
    rw [Parses, chopReturn_of_ne hlast]
    exact bind_eq_ok.mpr ⟨_, hread, if_neg (fun hne => hne rfl)⟩

/-- A text is read from its line exactly if it does not end in a carriage return and can be sent as
UTF-8. -/
theorem parses_text_iff {s : QString} (hshort : (toStdString s).length < 2 ^ 31) :
    Parses (parseTextProto behind) (toStdString s) (.leaf (.string s)) ↔
      (toStdString s).getLast? ≠ some carriageReturn ∧ TextKept (.leaf (.string s)) := by
  have hparser : ∀ frame : Bytes, frame.length < 2 ^ 31 →
      (parseTextProto behind frame = .ok (.leaf (.string s)) ↔ fromUtf8 frame = s) := by
    intro frame hframe
    rw [parseTextProto, fromUtf8Sized_of_lt hframe, Except.ok.injEq, QVariant.leaf.injEq,
      Scalar.string.injEq]
  by_cases hlast : (toStdString s).getLast? = some carriageReturn
  · refine iff_of_false ?_ (fun h => h.1 hlast)
    obtain ⟨front, hfront⟩ := List.getLast?_eq_some_iff.mp hlast
    have hlength := congrArg List.length hfront
    rw [List.length_append, List.length_singleton] at hlength
    rw [Parses, hfront, chopReturn_concat, hparser front (by omega)]
    exact fromUtf8_front_ne hfront
  · rw [Parses, chopReturn_of_ne hlast, hparser _ hshort, fromUtf8_toStdString_iff]
    exact ⟨fun hkept => ⟨hlast, hkept⟩, fun h => h.2⟩

/-- The protocol reads a message from its line exactly if the line carries it. -/
theorem Transmission.Sent.parses_iff (h : t.Sent DumpMsgPack ParseMsgPackInPlace config)
    (hself : config.protocol = .msgpack → SelfDelimiting ParseMsgPackInPlace) :
    Parses (protoParser ParseMsgPackInPlace behind config) t.payload t.msg ↔ t.Carried config := by
  obtain ⟨msg, payload, frame⟩ := t
  obtain ⟨hdumped, -, hshort, hcodec⟩ := h
  dsimp only at hdumped hshort hcodec
  unfold protoDumper at hdumped
  unfold protoParser Transmission.Carried
  cases hprotocol : config.protocol with
  | msgpack =>
    have hiff := parses_msgpack_iff (hself hprotocol) (hcodec hprotocol)
    simp only [hiff, reduceCtorEq, false_implies, and_true]
  | text =>
    rw [hprotocol] at hdumped
    cases msg with
    | list items => cases hdumped
    | map entries => cases hdumped
    | leaf scalar =>
      cases scalar with
      | string s =>
        cases hdumped
        have hlength : (toStdString s).length < 2 ^ 31 := Nat.lt_of_le_of_lt hshort (by decide)
        simp only [parses_text_iff hlength, true_implies]
      | _ => cases hdumped

/-- Messages that a worker with line framing has sent arrive at a worker with the same
configuration, however their bytes are cut, if and only if no payload ends in a carriage return and
all texts can be sent as UTF-8. -/
theorem sent_arrive_iff (hself : config.protocol = .msgpack → SelfDelimiting ParseMsgPackInPlace)
    {sent : List Transmission}
    (hsent : ∀ t ∈ sent, t.Sent DumpMsgPack ParseMsgPackInPlace config) :
    Arrives (protoParser ParseMsgPackInPlace behind config) (sent.map Transmission.msg)
        (sent.flatMap Transmission.frame) ↔ ∀ t ∈ sent, t.Carried config := by
  have hframes : sent.flatMap Transmission.frame = frames (sent.map Transmission.payload) := by
    rw [frames, List.flatMap_map]
    exact List.flatMap_congr fun t ht => (hsent t ht).frame_eq.2
  have hframable : ∀ payload ∈ sent.map Transmission.payload, Framable payload := by
    rintro _ hpayload
    obtain ⟨t, ht, rfl⟩ := List.mem_map.mp hpayload
    exact ⟨(hsent t ht).frame_eq.1, (hsent t ht).short⟩
  rw [hframes, arrives_iff_parses hframable (by rw [List.length_map, List.length_map]),
    List.forall₂_map_left_iff, List.forall₂_map_right_iff, List.forall₂_same]
  exact forall₂_congr fun t ht => (hsent t ht).parses_iff hself

end Worker

/-- A receiver with the small codec reads the number 5. -/
theorem five_arrives : Arrives (protoParser parseFixint [] ⟨.msgpack, none⟩)
    [.leaf (.longlong 5)] [5, newline] := by
  have hself : SelfDelimiting parseFixint := by
    intro bytes tail r h
    cases bytes with
    | nil => cases h
    | cons b rest => exact h
  have hsent : ∀ t ∈ [(⟨.leaf (.longlong 5), [5], [5, newline]⟩ : Transmission)],
      t.Sent (fun v => .ok (dumpFixint v)) parseFixint ⟨.msgpack, none⟩ := by
    intro t ht
    rw [List.mem_singleton.mp ht]
    exact ⟨rfl, rfl, by decide, fun _ => rfl⟩
  have hcarried : ∀ t ∈ [(⟨.leaf (.longlong 5), [5], [5, newline]⟩ : Transmission)],
      t.Carried ⟨.msgpack, none⟩ := by
    intro t ht
    rw [List.mem_singleton.mp ht]
    exact ⟨by decide, fun h => by cases h⟩
  exact (sent_arrive_iff (fun _ => hself) hsent).mpr hcarried

/-- The number 13 is a carriage return: its line is empty at the receiver, and the error of the
codec ends it. The text with a letter and a carriage return arrives as the letter. -/
theorem return_lost :
    (OnMsg (fun v => .ok (dumpFixint v)) ⟨.msgpack, none⟩ (.leaf (.longlong 13)) =
        .ok [13, newline] ∧ parseFixint [13] = .ok (.leaf (.longlong 13), 1) ∧
      ¬ Arrives (protoParser parseFixint [] ⟨.msgpack, none⟩) [.leaf (.longlong 13)]
        [13, newline]) ∧
    OnMsg (fun v => .ok (dumpFixint v)) ⟨.text, none⟩ (.leaf (.string [97, 13])) =
        .ok [97, 13, newline] ∧
      Arrives (protoParser parseFixint [] ⟨.text, none⟩) [.leaf (.string [97])]
        [97, 13, newline] := by
  refine ⟨⟨rfl, rfl, ?_⟩, rfl, ?_⟩
  · intro harrives
    have hparses := (arrives_iff_parses
      (show ∀ payload ∈ [[(13 : UInt8)]], Framable payload by decide) rfl).mp harrives
    cases hparses with
    | cons hfirst _ => cases hfirst
  · exact (arrives_iff_parses
      (show ∀ payload ∈ [[(97 : UInt8), 13]], Framable payload by decide) rfl).mpr
      (List.Forall₂.cons rfl List.Forall₂.nil)

end Radapter.Wire.Line
