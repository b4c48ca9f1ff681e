import Radapter.Wire.SlipWrite

/-!
# Reading the output of a child process

In binary mode a `ProcessWorker` reads all that its child has written into an array of the handler
and parses the frames in it. The other workers append what they read to a buffer of the worker.
What `ReceiveBinary` leaves in the array is the beginning of a frame that goes on in the next
read; here it is gone when the handler returns.

The file says on which reads the worker still emits the messages of the child.
-/

namespace Radapter.Wire.Slip

/-- The handler of `readyReadStandardOutput` on what `readAllStandardOutput` returns. What
`ReceiveBinary` leaves in `data` is dropped. -/
def readyReadStandardOutput (fromProto : ProtoParser) (data : Bytes) :
    Option (List (Except String QVariant)) :=
  (parseSlipFrames fromProto data).map Prod.fst

/-- The worker over all that its child writes, read by read. -/
def processReads (fromProto : ProtoParser) :
    List Bytes → Option (List (Except String QVariant))
  | [] => some []
  | data :: reads => do
      let received ← readyReadStandardOutput fromProto data
      let later ← processReads fromProto reads
      some (received ++ later)

section Codec

-- The codec is not part of the repository: the parser returns the number of bytes it consumed
-- with the value.
variable (DumpMsgPack : QVariant → Bytes)
variable (ParseMsgPackInPlace : Bytes → Except String (QVariant × ℕ))

/-- The parser reads the messages back from what the dumper makes of them. -/
def RoundTrips (msgs : List QVariant) : Prop :=
  ∀ msg ∈ msgs, ParseMsgPackInPlace (DumpMsgPack msg) = .ok (msg, (DumpMsgPack msg).length)

/-- The slip-framed messages, one behind the other. -/
def framed (msgs : List QVariant) : Bytes :=
  msgs.flatMap (fun msg => escaped (DumpMsgPack msg) ++ [END])

/-- With every parser that reads the messages back, the worker emits them in order, as a worker
that keeps its buffer between the reads does. -/
def EmitsAll (msgs : List QVariant) (reads : List Bytes) : Prop :=
  ∀ ParseMsgPackInPlace, RoundTrips DumpMsgPack ParseMsgPackInPlace msgs →
    ∃ outcomes, processReads (parseMsgpackProto ParseMsgPackInPlace) reads = some outcomes ∧
      emitted outcomes = msgs ∧
      (receiveChunks (parseMsgpackProto ParseMsgPackInPlace) [] reads).map (emitted ·.1) =
        some (emitted outcomes)

end Codec

/-! ## The pieces that reach the parser -/

/-- What follows the last END goes in front of what comes later. -/
theorem segments_append (xs ys : Bytes) :
    segments (xs ++ ys) = segments xs ++ segments (afterEnd xs ++ ys) := by
  have happ := congrArg Prod.fst ((Library.Splitter.delimited END id).drain_append xs ys)
  simp only [Library.Splitter.delimited_drain, List.map_id] at happ
  exact happ

/-- The rest after the last END, when more comes later. -/
theorem afterEnd_append (xs ys : Bytes) : afterEnd (xs ++ ys) = afterEnd (afterEnd xs ++ ys) := by
  have happ := congrArg Prod.snd ((Library.Splitter.delimited END id).drain_append xs ys)
  simp only [Library.Splitter.delimited_drain] at happ
  exact happ

/-- The rest has no END. -/
theorem END_not_mem_afterEnd (stream : Bytes) : END ∉ afterEnd stream :=
  Library.Splitter.not_mem_of_mem_splitOn (List.getLast_mem _)

/-- Without an END everything is rest. -/
theorem afterEnd_of_not_mem {part : Bytes} (hpart : END ∉ part) : afterEnd part = part := by
  simp [afterEnd, List.splitOn_eq_singleton hpart]

/-- An END leaves no rest. -/
theorem afterEnd_concat_END {part : Bytes} (hpart : END ∉ part) :
    afterEnd (part ++ [END]) = [] := by
  simp [afterEnd, List.splitOn_append_cons_self_of_not_mem hpart]

/-- The segment of an END-terminated part comes first. -/
theorem segments_cons {part : Bytes} (hpart : END ∉ part) (rest : Bytes) :
    segments (part ++ [END] ++ rest) = part :: segments rest := by
  rw [segments, segments, List.append_assoc, List.singleton_append,
    List.splitOn_append_cons_self_of_not_mem hpart,
    List.dropLast_cons_of_ne_nil (List.splitOn_ne_nil END rest)]

/-- A read leaves nothing behind when it is empty or ends in an END. -/
theorem afterEnd_eq_nil_iff (data : Bytes) :
    afterEnd data = [] ↔ data = [] ∨ data.getLast? = some END := by
  rcases List.eq_nil_or_concat data with rfl | ⟨init, b, rfl⟩
  · simp [afterEnd]
  · have hinit := END_not_mem_afterEnd init
    rw [List.concat_eq_append, List.getLast?_concat, afterEnd_append]
    by_cases hb : b = END
    · simp [hb, afterEnd_concat_END hinit]
    · have hmem : END ∉ afterEnd init ++ [b] := by
        simp only [List.mem_append, List.mem_singleton, not_or]
        exact ⟨hinit, fun h => hb h.symm⟩
      simp [afterEnd_of_not_mem hmem, hb]

/-- The bytes of a stream are those of its segments, an END for each, and the rest. -/
theorem length_eq_segments (stream : Bytes) :
    stream.length = ((segments stream).map (fun s => s.length + 1)).sum +
      (afterEnd stream).length := by
  induction hlen : stream.length using Nat.strongRecOn generalizing stream with
  | ind n ih =>
    by_cases hmem : END ∈ stream
    · obtain ⟨part, rest, rfl, hpart⟩ := List.eq_append_cons_of_mem hmem
      have hrest := ih rest.length (by simp at hlen; omega) rest rfl
      have hafter : afterEnd (part ++ END :: rest) = afterEnd rest := by
        rw [← List.singleton_append, ← List.append_assoc, afterEnd_append,
          afterEnd_concat_END hpart, List.nil_append]
      have hcons := segments_cons hpart rest
      rw [List.append_assoc, List.singleton_append] at hcons
      rw [hafter, hcons, List.map_cons, List.sum_cons, ← hlen]
      simp only [List.length_append, List.length_cons]
      omega
    · simp [segments, afterEnd_of_not_mem hmem, List.splitOn_eq_singleton hmem, hlen]

/-- There is a segment for every END. -/
theorem length_segments (stream : Bytes) : (segments stream).length = stream.count END := by
  induction hlen : stream.length using Nat.strongRecOn generalizing stream with
  | ind n ih =>
    by_cases hmem : END ∈ stream
    · obtain ⟨part, rest, rfl, hpart⟩ := List.eq_append_cons_of_mem hmem
      have hcons := segments_cons hpart rest
      rw [List.append_assoc, List.singleton_append] at hcons
      rw [hcons, List.length_cons, ih rest.length (by simp at hlen; omega) rest rfl,
        List.count_append, List.count_eq_zero.mpr hpart, List.count_cons_self, Nat.zero_add]
    · simp [segments, List.splitOn_eq_singleton hmem, List.count_eq_zero.mpr hmem]

/-- The pieces of the stream that `ReceiveBinary` finds in the reads. -/
def pieces (reads : List Bytes) : List Bytes := reads.flatMap segments

/-- No read ends inside a frame. -/
def Whole (reads : List Bytes) : Prop := ∀ data ∈ reads, data = [] ∨ data.getLast? = some END

instance (reads : List Bytes) : Decidable (Whole reads) :=
  inferInstanceAs (Decidable (∀ data ∈ reads, data = [] ∨ data.getLast? = some END))

/-- The worker parses the pieces, each cut to its length modulo `2 ^ 32`. -/
theorem processReads_eq (fromProto : ProtoParser) (reads : List Bytes) :
    processReads fromProto reads =
      some ((pieces reads).map (fun s => parseSlipFrame fromProto (cut s))) := by
  induction reads with
  | nil => simp [processReads, pieces]
  | cons data reads ih =>
    have hdata := receiveChunks_stream fromProto [data]
    simp only [receiveChunks, List.nil_append, Option.bind_eq_bind, Option.bind_some,
      List.append_nil, List.flatten_cons, List.flatten_nil] at hdata
    obtain ⟨received, hreceived, heq⟩ := Option.bind_eq_some_iff.mp hdata
    have hmap : received.1 =
        (segments data).map (fun s => parseSlipFrame fromProto (cut s)) :=
      congrArg Prod.fst (Option.some.inj heq)
    rw [processReads, readyReadStandardOutput, hreceived, ih]
    simp only [Option.map_some, Option.bind_eq_bind, Option.bind_some, hmap, pieces,
      List.flatMap_cons, List.map_append]

/-- The messages emitted for segments. -/
theorem emitted_map (fromProto : ProtoParser) (parts : List Bytes) :
    emitted (parts.map (fun s => parseSlipFrame fromProto (cut s))) =
      parts.filterMap (fun s => decode fromProto (cut s)) := by
  simp only [emitted, List.filterMap_map, Function.comp_def, parseSlipFrame_toOption]

/-- When no read ends inside a frame, the pieces are the segments of the stream. -/
theorem pieces_of_whole {reads : List Bytes} (hwhole : Whole reads) :
    pieces reads = segments reads.flatten := by
  induction reads with
  | nil => simp [pieces, segments]
  | cons data reads ih =>
    have hrest : afterEnd data = [] :=
      (afterEnd_eq_nil_iff data).mpr (hwhole data (List.mem_cons_self ..))
    rw [List.flatten_cons, segments_append, hrest, List.nil_append,
      ← ih fun d hd => hwhole d (List.mem_cons_of_mem _ hd)]
    simp only [pieces, List.flatMap_cons]

/-- The bytes read are those of the pieces, an END for each, and what the handler drops. -/
theorem length_eq_pieces (reads : List Bytes) :
    reads.flatten.length = ((pieces reads).map List.length).sum + (pieces reads).length +
      (reads.map (fun data => (afterEnd data).length)).sum := by
  have hsum (parts : List Bytes) : (parts.map (fun s => s.length + 1)).sum =
      (parts.map List.length).sum + parts.length := by
    induction parts with
    | nil => rfl
    | cons s parts ih =>
      simp only [List.map_cons, List.sum_cons, ih, List.length_cons]
      omega
  induction reads with
  | nil => simp [pieces]
  | cons data reads ih =>
    have hdata := length_eq_segments data
    rw [hsum] at hdata
    simp only [pieces] at ih
    simp only [List.flatten_cons, List.length_append, ih, hdata, pieces, List.flatMap_cons,
      List.map_append, List.sum_append, List.map_cons, List.sum_cons]
    omega

/-- There is a piece for every END that is read. -/
theorem length_pieces (reads : List Bytes) :
    (pieces reads).length = reads.flatten.count END := by
  induction reads with
  | nil => simp [pieces]
  | cons data reads ih =>
    simp only [pieces] at ih
    simp only [pieces, List.flatMap_cons, List.length_append, length_segments, ih,
      List.flatten_cons, List.count_append]

/-! ## The frames of messages -/

section Codec

variable {DumpMsgPack : QVariant → Bytes}

/-- The segments of framed messages are their escaped dumps. -/
theorem segments_framed (msgs : List QVariant) :
    segments (framed DumpMsgPack msgs) = msgs.map (fun msg => escaped (DumpMsgPack msg)) := by
  induction msgs with
  | nil => rfl
  | cons msg msgs ih =>
    have hcons := segments_cons (END_not_mem_escaped (DumpMsgPack msg)) (framed DumpMsgPack msgs)
    rw [List.map_cons, ← ih, ← hcons]
    simp only [framed, List.flatMap_cons]

/-- Nothing follows the last frame. -/
theorem afterEnd_framed (msgs : List QVariant) : afterEnd (framed DumpMsgPack msgs) = [] := by
  induction msgs with
  | nil => rfl
  | cons msg msgs ih =>
    have hframe := afterEnd_concat_END (END_not_mem_escaped (DumpMsgPack msg))
    rw [← ih, framed, List.flatMap_cons, afterEnd_append, hframe, List.nil_append]
    rfl

/-- The parser that accepts the dumps of the messages and nothing else. -/
def onlyDumped (DumpMsgPack : QVariant → Bytes) (msgs : List QVariant) (frame : Bytes) :
    Except String (QVariant × ℕ) :=
  match msgs.find? (fun msg => DumpMsgPack msg = frame) with
  | some msg => .ok (msg, frame.length)
  | none => .error "unexpected bytes"

/-- It reads the messages back when a parser can. -/
theorem roundTrips_onlyDumped {ParseMsgPackInPlace : Bytes → Except String (QVariant × ℕ)}
    {msgs : List QVariant} (h : RoundTrips DumpMsgPack ParseMsgPackInPlace msgs) :
    RoundTrips DumpMsgPack (onlyDumped DumpMsgPack msgs) msgs := by
  intro msg hmsg
  cases hfind : msgs.find? (fun other => DumpMsgPack other = DumpMsgPack msg) with
  | none => simpa using List.find?_eq_none.mp hfind msg hmsg
  | some other =>
    have hdump : DumpMsgPack other = DumpMsgPack msg := by simpa using List.find?_some hfind
    have hother := h other (List.mem_of_find?_eq_some hfind)
    rw [hdump, h msg hmsg] at hother
    have hsame : msg = other := congrArg Prod.fst (Except.ok.inj hother)
    rw [onlyDumped, hfind, hsame]

/-- What it accepts is the dump of the message it returns. -/
theorem decode_onlyDumped {msgs : List QVariant} {msg : QVariant} {segment : Bytes}
    (hend : END ∉ segment)
    (h : decode (parseMsgpackProto (onlyDumped DumpMsgPack msgs)) segment = some msg) :
    segment = escaped (DumpMsgPack msg) := by
  rw [decode] at h
  obtain ⟨payload, hread, h⟩ := Option.bind_eq_some_iff.mp h
  have hok : Read segment = .ok payload := by
    cases hr : Read segment with
    | error e => simp [hr, Except.toOption] at hread
    | ok p => simpa [hr, Except.toOption] using hread
  rw [eq_escaped_of_Read hend hok]
  simp only [parseMsgpackProto, onlyDumped] at h
  cases hfind : msgs.find? (fun other => DumpMsgPack other = payload) with
  | none => simp [hfind, bind, Except.bind, Except.toOption] at h
  | some other =>
    have hdump : DumpMsgPack other = payload := by simpa using List.find?_some hfind
    have hmsg : other = msg := by simpa [hfind, bind, Except.bind, Except.toOption] using h
    rw [← hdump, hmsg]

/-- A message is decoded from its frame. -/
theorem decode_escaped {ParseMsgPackInPlace : Bytes → Except String (QVariant × ℕ)}
    {msgs : List QVariant} (h : RoundTrips DumpMsgPack ParseMsgPackInPlace msgs) {msg : QVariant}
    (hmsg : msg ∈ msgs) :
    decode (parseMsgpackProto ParseMsgPackInPlace) (escaped (DumpMsgPack msg)) = some msg := by
  simp [decode, Read_escaped, parseMsgpackProto, h msg hmsg, Except.toOption, bind, Except.bind]

/-- If nothing was left out, each item gave its own. -/
private theorem map_some_of_filterMap {α β : Type*} {f : α → Option β} {xs : List α} {ys : List β}
    (h : xs.filterMap f = ys) (hlen : xs.length = ys.length) : xs.map f = ys.map some := by
  induction xs generalizing ys with
  | nil =>
    cases h
    rfl
  | cons x xs ih =>
    have hle := List.length_filterMap_le f xs
    cases hx : f x with
    | none =>
      rw [List.filterMap_cons_none hx] at h
      rw [← h, List.length_cons] at hlen
      omega
    | some y =>
      rw [List.filterMap_cons_some hx] at h
      subst h
      rw [List.map_cons, List.map_cons, hx, ih rfl (by simpa using hlen)]

/-- When the parser that accepts only the dumps emits all messages, every piece is the whole of
a frame, cut to its length modulo `2 ^ 32`. -/
theorem map_cut_pieces {msgs : List QVariant} {reads : List Bytes}
    (hreads : reads.flatten = framed DumpMsgPack msgs)
    (hemit : (pieces reads).filterMap (fun s =>
      decode (parseMsgpackProto (onlyDumped DumpMsgPack msgs)) (cut s)) = msgs) :
    (pieces reads).map cut = msgs.map (fun msg => escaped (DumpMsgPack msg)) := by
  have hlen : (pieces reads).length = msgs.length := by
    rw [length_pieces, hreads, ← length_segments, segments_framed, List.length_map]
  have hmap := map_some_of_filterMap hemit hlen
  apply List.ext_getElem (by simp [hlen])
  intro i hi hi'
  have hpiece : i < (pieces reads).length := by simpa using hi
  have hmsg : i < msgs.length := by simpa using hi'
  have hdecode := congrArg (fun l => l[i]?) hmap
  simp only [List.getElem?_map, List.getElem?_eq_getElem hpiece, List.getElem?_eq_getElem hmsg,
    Option.map_some, Option.some.injEq] at hdecode
  simp only [List.getElem_map]
  apply decode_onlyDumped _ hdecode
  obtain ⟨data, -, hdata⟩ := List.mem_flatMap.mp (List.getElem_mem hpiece)
  exact fun h => END_not_mem_of_mem_segments hdata (List.mem_of_mem_take h)

/-- Segments do not grow when they are cut. -/
private theorem sum_cut_le (parts : List Bytes) :
    ((parts.map cut).map List.length).sum ≤ (parts.map List.length).sum := by
  induction parts with
  | nil => simp
  | cons s parts ih =>
    have hs : (cut s).length ≤ s.length := by
      rw [cut, List.length_take]
      exact Nat.min_le_right _ _
    simp only [List.map_cons, List.sum_cons]
    omega

/-- The worker emits the framed messages of its child, as a worker with a buffer does, exactly
when no read ends inside a frame and the conversion of the lengths to `unsigned` changes none. -/
theorem emitsAll_iff {msgs : List QVariant} {reads : List Bytes}
    (hcodec : ∃ ParseMsgPackInPlace, RoundTrips DumpMsgPack ParseMsgPackInPlace msgs)
    (hreads : reads.flatten = framed DumpMsgPack msgs) :
    EmitsAll DumpMsgPack msgs reads ↔
      Whole reads ∧ ∀ msg ∈ msgs, (escaped (DumpMsgPack msg)).length < 2 ^ 32 := by
  constructor
  · intro h
    obtain ⟨Parse, hparse⟩ := hcodec
    obtain ⟨outcomes, hrun, hemit, -⟩ := h _ (roundTrips_onlyDumped hparse)
    rw [processReads_eq, Option.some.injEq] at hrun
    rw [← hrun, emitted_map] at hemit
    have hcut := map_cut_pieces hreads hemit
    constructor
    · -- The pieces already have all bytes of the stream, so no read leaves any behind.
      have htotal := length_eq_pieces reads
      have hframes := length_eq_pieces [framed DumpMsgPack msgs]
      have hle := sum_cut_le (pieces reads)
      have hpieces : pieces [framed DumpMsgPack msgs] =
          msgs.map (fun msg => escaped (DumpMsgPack msg)) := by
        simp [pieces, segments_framed]
      have hrest : afterEnd (framed DumpMsgPack msgs) = [] := afterEnd_framed msgs
      have hnum : (pieces reads).length = msgs.length := by
        simpa using congrArg List.length hcut
      rw [hpieces, ← hcut, List.flatten_singleton, List.length_map] at hframes
      simp only [List.map_cons, List.map_nil, List.sum_cons, List.sum_nil, hrest,
        List.length_nil] at hframes
      rw [hreads] at htotal
      have hzero : (reads.map (fun data => (afterEnd data).length)).sum = 0 := by omega
      intro data hdata
      apply (afterEnd_eq_nil_iff data).mp
      apply List.length_eq_zero_iff.mp
      exact List.sum_eq_zero_iff_forall_eq_nat.mp hzero _ (List.mem_map_of_mem hdata)
    · intro msg hmsg
      have hmem : escaped (DumpMsgPack msg) ∈ (pieces reads).map cut := by
        rw [hcut]
        exact List.mem_map_of_mem hmsg
      obtain ⟨s, -, hs⟩ := List.mem_map.mp hmem
      rw [← hs, cut, List.length_take]
      exact Nat.lt_of_le_of_lt (Nat.min_le_left _ _) (Nat.mod_lt _ (by decide))
  · rintro ⟨hwhole, hshort⟩ Parse hparse
    have hpieces : pieces reads = msgs.map (fun msg => escaped (DumpMsgPack msg)) := by
      rw [pieces_of_whole hwhole, hreads, segments_framed]
    have hall : (pieces reads).filterMap (fun s => decode (parseMsgpackProto Parse) (cut s)) =
        msgs := by
      rw [hpieces, List.filterMap_map]
      refine (List.filterMap_congr fun msg hmsg => ?_).trans List.filterMap_some
      rw [Function.comp_apply, cut_of_lt (hshort msg hmsg), decode_escaped hparse hmsg]
    refine ⟨_, processReads_eq _ _, ?_, ?_⟩
    · rw [emitted_map, hall]
    · rw [receiveChunks_stream, Option.map_some, pieces_of_whole hwhole]

/-- A number that arrives in one read is emitted. -/
theorem emitsAll_five : EmitsAll dumpFixint [.leaf (.longlong 5)] [[5, END]] :=
  (emitsAll_iff ⟨parseFixint, by simp [RoundTrips, dumpFixint, parseFixint]⟩ rfl).mpr
    (by decide)

/-- The same number is lost when its END comes in a second read. -/
theorem not_emitsAll_split : ¬ EmitsAll dumpFixint [.leaf (.longlong 5)] [[5], [END]] := by
  intro h
  have hparse : RoundTrips dumpFixint parseFixint [.leaf (.longlong 5)] := by
    simp [RoundTrips, dumpFixint, parseFixint]
  obtain ⟨outcomes, hrun, hemit, -⟩ := h parseFixint hparse
  have hlost : processReads (parseMsgpackProto parseFixint) [[5], [END]] =
      some [.error "Error receiving msgpack: unexpected end"] := by rfl
  rw [hlost, Option.some.injEq] at hrun
  subst hrun
  cases hemit

end Codec

end Radapter.Wire.Slip
