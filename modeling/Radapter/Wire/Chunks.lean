import Radapter.Wire.Drain

/-!
# Streams of frames cut into chunks

A stream transport delivers the bytes of consecutive frames in chunks of its own choosing. As
long as the receive buffer stays below `2 ^ 31` bytes, `DrainFrames` after each chunk follows the
ideal splitting of the stream into frames, so the callbacks see every frame once and in order,
and the buffer keeps the bytes of the frame that is not complete yet.
-/

namespace Radapter.Wire

open Library

/-- Part of a stream of frames, none of which reaches `2 ^ 31` bytes. -/
def OfFrames (buf : Bytes) : Prop :=
  ∃ payloads : List Bytes, (∀ p ∈ payloads, (framed p).length < 2 ^ 31) ∧
    buf <+: payloads.flatMap framed

/-- Such frames have payloads that a header can announce. -/
private theorem payload_lt {payloads : List Bytes}
    (hsize : ∀ p ∈ payloads, (framed p).length < 2 ^ 31) : ∀ p ∈ payloads, p.length < 2 ^ 32 := by
  intro p hp
  have hlen := hsize p hp
  rw [framed_length] at hlen
  omega

/-- The front of part of a stream is part of it. -/
theorem OfFrames.of_append {buf more : Bytes} (h : OfFrames (buf ++ more)) : OfFrames buf := by
  obtain ⟨payloads, hsize, hpre⟩ := h
  exact ⟨payloads, hsize, (List.prefix_append _ _).trans hpre⟩

/-- Removing the complete frames leaves part of the stream of the frames that follow. -/
theorem OfFrames.after_drain {buf more : Bytes} (h : OfFrames (buf ++ more)) :
    OfFrames ((frames.drain buf).2 ++ more) := by
  obtain ⟨payloads, hsize, hpre⟩ := h
  obtain ⟨delivered, pending, tail, rfl, rfl, _, _, hdrain⟩ :=
    frames_drain_prefix (payload_lt hsize) ((List.prefix_append _ _).trans hpre)
  rw [List.append_assoc, List.flatMap_append, List.prefix_append_right_inj] at hpre
  rw [hdrain]
  exact ⟨pending, fun p hp => hsize p (by simp [hp]), hpre⟩

/-- On such a buffer a round of the loop is the ideal splitting. -/
theorem drainStep_eq_split {buf : Bytes} (hlen : buf.length < 2 ^ 31) (hof : OfFrames buf) :
    drainStep buf = frames.split buf := by
  obtain ⟨payloads, hsize, hbuf⟩ := hof
  by_cases hfour : 4 ≤ buf.length
  · cases payloads with
    | nil =>
      have hnil : buf = [] := by simpa using hbuf
      simp [hnil] at hfour
    | cons p rest =>
      obtain ⟨more, hmore⟩ := hbuf
      have hp := hsize p (by simp)
      rw [framed_length] at hp
      have hann : announced buf = p.length := by
        have hfits : p.length < 2 ^ 32 := by omega
        have h := announced_framed hfits (rest.flatMap framed)
        rw [← List.flatMap_cons, ← hmore] at h
        match buf, hfour with
        | b0 :: b1 :: b2 :: b3 :: tail, _ => exact h
      change _ = frameSplit buf
      by_cases hpass : passesCheck buf = true
      · obtain ⟨hwhole, hstep⟩ := drainStep_of_lt hpass (by omega)
        rw [hstep, frameSplit, if_pos ⟨hfour, hwhole⟩]
      · rw [drainStep, if_neg hpass, frameSplit, if_neg]
        rintro ⟨_, hwhole⟩
        apply hpass
        simp only [passesCheck, Bool.and_eq_true, decide_eq_true_eq]
        omega
  · have hpass : ¬ passesCheck buf = true := by simp [passesCheck, hfour]
    change _ = frameSplit buf
    rw [drainStep, if_neg hpass, frameSplit, if_neg (fun h => hfour h.1)]

/-- `DrainFrames` on part of a stream of frames. -/
theorem Codec.DrainFrames_eq_drain (c : Codec) {buf : Bytes} (hlen : buf.length < 2 ^ 31)
    (hof : OfFrames buf) :
    c.DrainFrames buf = some ((frames.drain buf).1.flatMap c.deliver, (frames.drain buf).2) := by
  have hloop : loop drainStep (buf.length + 1) buf = some (frames.drain buf) := by
    refine loop_eq_drain frames drainStep
      (P := fun xs => xs.length < 2 ^ 31 ∧ OfFrames xs)
      (fun xs h => drainStep_eq_split h.1 h.2) ?_ ⟨hlen, hof⟩
    rintro xs b rest ⟨hxs, payloads, hsize, hpre⟩ hsplit
    refine ⟨Nat.lt_trans (frames.shorter hsplit) hxs, ?_⟩
    obtain ⟨delivered, pending, tail, rfl, rfl, hhead, _, hdrain⟩ :=
      frames_drain_prefix (payload_lt hsize) hpre
    cases delivered with
    | nil =>
      rw [frames.drain_of_some hsplit] at hdrain
      cases hdrain
    | cons p more =>
      have hp := hsize p (by simp)
      rw [framed_length] at hp
      rw [List.flatMap_cons, List.append_assoc, frames_split_framed (by omega)] at hsplit
      obtain ⟨_, rfl⟩ := Prod.mk.inj (Option.some.inj hsplit)
      refine ⟨more ++ pending, fun q hq => hsize q (by simp at hq ⊢; tauto), ?_⟩
      rw [List.flatMap_cons, List.cons_append, List.flatMap_cons, List.append_assoc,
        List.prefix_append_right_inj] at hpre
      exact hpre
  rw [DrainFrames, drainFor, hloop]
  rfl

/-- Receiving part of a stream of frames in chunks is the ideal splitting of what has arrived,
as long as no chunk brings the buffer to `2 ^ 31` bytes. -/
theorem Codec.receive_eq_drain (c : Codec) {buf : Bytes} {chunks : List Bytes}
    (hstart : frames.split buf = none) (hstream : OfFrames (buf ++ chunks.flatten))
    (hbelow : ∀ d ch r, chunks = d ++ ch :: r →
      (frames.drain (buf ++ d.flatten)).2.length + ch.length < 2 ^ 31) :
    c.receive buf chunks =
      some ((frames.drain (buf ++ chunks.flatten)).1.flatMap c.deliver,
        (frames.drain (buf ++ chunks.flatten)).2) := by
  induction chunks generalizing buf with
  | nil => simp [receive, frames.drain_of_none hstart]
  | cons ch rest ih =>
    rw [List.flatten_cons, ← List.append_assoc] at hstream
    have hlen : (buf ++ ch).length < 2 ^ 31 := by
      have h := hbelow [] ch rest rfl
      rwa [List.flatten_nil, List.append_nil, frames.drain_of_none hstart,
        ← List.length_append] at h
    have hlater := ih (frames.split_drain (buf ++ ch)) hstream.after_drain (by
      rintro d ch' r rfl
      have h := hbelow (ch :: d) ch' r rfl
      rwa [List.flatten_cons, ← List.append_assoc, frames.drain_append] at h)
    rw [receive, c.DrainFrames_eq_drain hlen hstream.of_append]
    simp only [Option.bind_eq_bind, Option.bind_some, hlater, Option.pure_def]
    rw [List.flatten_cons, ← List.append_assoc, frames.drain_append (buf ++ ch)]
    simp

/-! ## What was sent and what arrives -/

/-- What a peer puts on the stream: the frame of a message, or a complete frame around a payload
that `Decode` refuses. -/
inductive Sent where
  | msg (v : QVariant)
  | malformed (payload : Bytes)

/-- The payload of what was sent. -/
def Sent.payload (c : Codec) : Sent → Bytes
  | .msg v => c.Encode v
  | .malformed payload => payload

/-- The bytes on the stream. -/
def Sent.frame (c : Codec) (x : Sent) : Bytes := framed (x.payload c)

/-- The one call that what was sent is to cause. -/
def Sent.event (c : Codec) : Sent → Event
  | .msg v => .onMsg v
  | .malformed payload =>
      match c.Decode payload with
      | .error text => .onError text
      | .ok v => .onMsg v

/-- Messages are valid and survive the codec, and malformed payloads are refused. -/
structure Sent.Good (c : Codec) (x : Sent) : Prop where
  decodes : ∀ v, x = .msg v → c.Decode (c.Encode v) = .ok v
  valid : ∀ v, x = .msg v → v.isValid = true
  refused : ∀ payload, x = .malformed payload → ∃ text, c.Decode payload = .error text

/-- Everything that was sent causes its one call. -/
theorem Sent.Good.deliver_eq {c : Codec} {x : Sent} (h : x.Good c) :
    c.deliver (x.payload c) = [x.event c] := by
  cases x with
  | msg v => simp [Codec.deliver, payload, event, h.decodes v rfl, h.valid v rfl]
  | malformed payload =>
    obtain ⟨text, htext⟩ := h.refused payload rfl
    simp [Codec.deliver, Sent.payload, event, htext]

/-- The number of bytes that follow the last complete frame when `n` bytes of the stream have
arrived. -/
def unreadLength : List Bytes → ℕ → ℕ
  | [], n => n
  | f :: fs, n => if f.length ≤ n then unreadLength fs (n - f.length) else n

/-- The buffer never holds `2 ^ 31` bytes: what follows the last complete frame stays below that
size together with the chunk that arrives next. -/
def BufferBelow (stream chunks : List Bytes) : Prop :=
  ∀ d ch r, chunks = d ++ ch :: r →
    unreadLength stream d.flatten.length + ch.length < 2 ^ 31

/-- Frames that have arrived are read. -/
private theorem unreadLength_append (fs gs : List Bytes) (n : ℕ) :
    unreadLength (fs ++ gs) (fs.flatten.length + n) = unreadLength gs n := by
  induction fs with
  | nil => simp
  | cons f fs ih =>
    simp only [List.cons_append, unreadLength, List.flatten_cons, List.length_append]
    rw [if_pos (by omega), ← ih]
    congr 1
    omega

/-- Some chunk completes the first `n` bytes of what the chunks hold. -/
private theorem exists_completing_chunk {chunks : List Bytes} {n : ℕ} (hpos : 0 < n)
    (hn : n ≤ chunks.flatten.length) :
    ∃ d ch r, chunks = d ++ ch :: r ∧ d.flatten.length < n ∧
      n ≤ d.flatten.length + ch.length := by
  induction chunks generalizing n with
  | nil => simp at hn; omega
  | cons c rest ih =>
    rw [List.flatten_cons, List.length_append] at hn
    by_cases hc : n ≤ c.length
    · exact ⟨[], c, rest, rfl, by simpa using hpos, by simpa using hc⟩
    · obtain ⟨d, ch, r, rfl, hlt, hle⟩ := ih (n := n - c.length) (by omega) (by omega)
      refine ⟨c :: d, ch, r, rfl, ?_, ?_⟩
      · rw [List.flatten_cons, List.length_append]; omega
      · rw [List.flatten_cons, List.length_append]; omega

/-- A frame is popped from a buffer that holds it whole, so no frame is larger than the buffer. -/
theorem BufferBelow.frame_lt {stream chunks : List Bytes} (h : BufferBelow stream chunks)
    (hall : chunks.flatten = stream.flatten) {f : Bytes} (hf : f ∈ stream) : f.length < 2 ^ 31 := by
  obtain ⟨before, after, rfl⟩ := List.append_of_mem hf
  by_cases hzero : f.length = 0
  · omega
  · have hend : before.flatten.length + f.length ≤ chunks.flatten.length := by
      rw [hall, List.flatten_append, List.flatten_cons, List.length_append, List.length_append]
      omega
    obtain ⟨d, ch, r, hd, hlt, hle⟩ := exists_completing_chunk (by omega) hend
    have hbuf := h d ch r hd
    by_cases hreached : before.flatten.length ≤ d.flatten.length
    · obtain ⟨k, hk⟩ := Nat.exists_eq_add_of_le hreached
      rw [hk, unreadLength_append, unreadLength, if_neg (by omega)] at hbuf
      omega
    · omega

/-- What the ideal splitting leaves unread has the length the buffer is measured by. -/
private theorem drain_length_eq_unread {payloads : List Bytes} {buf : Bytes}
    (hsize : ∀ p ∈ payloads, p.length < 2 ^ 32) (hbuf : buf <+: payloads.flatMap framed) :
    (frames.drain buf).2.length = unreadLength (payloads.map framed) buf.length := by
  obtain ⟨delivered, pending, tail, rfl, rfl, hhead, hlast, hdrain⟩ :=
    frames_drain_prefix hsize hbuf
  rw [hdrain, List.map_append, List.length_append, List.flatMap_def, unreadLength_append]
  cases pending with
  | nil => simp [hlast rfl, unreadLength]
  | cons p rest => rw [List.map_cons, unreadLength, if_neg (by have := (hhead p rfl).2; omega)]

/-- Cut the frames of any list of payloads into chunks in any way. After any number of the chunks
the payloads of the complete frames have been delivered, and the buffer holds the bytes of the frame
that is not; after all chunks everything has been delivered. -/
theorem Codec.receive_payloads (c : Codec) {payloads chunks d r : List Bytes}
    (hchunks : chunks.flatten = payloads.flatMap framed)
    (hbelow : BufferBelow (payloads.map framed) chunks) (hd : chunks = d ++ r) :
    ∃ delivered pending tail, payloads = delivered ++ pending ∧
      d.flatten = delivered.flatMap framed ++ tail ∧
      (∀ p, pending.head? = some p → tail <+: framed p ∧ tail.length < (framed p).length) ∧
      c.receive [] d = some (delivered.flatMap c.deliver, tail) ∧
      (r.flatten = [] → pending = [] ∧ tail = []) := by
  have hsize : ∀ p ∈ payloads, (framed p).length < 2 ^ 31 := fun p hp =>
    hbelow.frame_lt (by rw [hchunks, List.flatMap_def]) (List.mem_map_of_mem hp)
  have hfits := payload_lt hsize
  have hpre : ∀ e, e <+: d → e.flatten <+: payloads.flatMap framed := by
    rintro e ⟨rest, rfl⟩
    rw [← hchunks, hd, List.append_assoc, List.flatten_append]
    exact List.prefix_append _ _
  obtain ⟨delivered, pending, tail, rfl, hbytes, hhead, hlast, hdrain⟩ :=
    frames_drain_prefix hfits (hpre d List.prefix_rfl)
  refine ⟨delivered, pending, tail, rfl, hbytes, hhead, ?_, ?_⟩
  · have hrecv : c.receive [] d = _ := c.receive_eq_drain rfl
      ⟨_, hsize, by simpa using hpre d List.prefix_rfl⟩ (by
        rintro e ch s rfl
        have hbuf := hbelow e ch (s ++ r) (by rw [hd]; simp)
        rw [List.nil_append, drain_length_eq_unread hfits (hpre e (List.prefix_append _ _))]
        exact hbuf)
    rw [List.nil_append, hdrain] at hrecv
    exact hrecv
  · intro hr
    have hrest : tail = pending.flatMap framed := by
      have h := hchunks
      rw [hd, List.flatten_append, hr, List.append_nil, hbytes, List.flatMap_append] at h
      exact List.append_cancel_left h
    cases pending with
    | nil => exact ⟨rfl, by simpa using hrest⟩
    | cons p rest =>
      have hlt := (hhead p rfl).2
      rw [hrest, List.flatMap_cons, List.length_append] at hlt
      omega

/-- **Chunked reception.** Cut the frames of any list of messages and malformed payloads into
chunks in any way. After any number of the chunks the receiver has made exactly the calls of the
frames that are complete, one for each and in order, and its buffer holds exactly the bytes of
the frame that is not; after all chunks everything has been delivered. -/
theorem Codec.receive_chunks (c : Codec) {items : List Sent} {chunks d r : List Bytes}
    (hgood : ∀ x ∈ items, x.Good c) (hchunks : chunks.flatten = items.flatMap (Sent.frame c))
    (hbelow : BufferBelow (items.map (Sent.frame c)) chunks) (hd : chunks = d ++ r) :
    ∃ delivered pending tail, items = delivered ++ pending ∧
      d.flatten = delivered.flatMap (Sent.frame c) ++ tail ∧
      (∀ x, pending.head? = some x →
        tail <+: x.frame c ∧ tail.length < (x.frame c).length) ∧
      c.receive [] d = some (delivered.map (Sent.event c), tail) ∧
      (r.flatten = [] → pending = [] ∧ tail = []) := by
  have hstream : chunks.flatten = (items.map (Sent.payload c)).flatMap framed := by
    rw [hchunks, List.flatMap_map]
    rfl
  obtain ⟨delivered', pending', tail, hsplit, hbytes, hhead, hrecv, hlast⟩ :=
    c.receive_payloads hstream (by rw [List.map_map]; exact hbelow) hd
  obtain ⟨delivered, pending, hitems, rfl, rfl⟩ := List.map_eq_append_iff.mp hsplit
  subst hitems
  refine ⟨delivered, pending, tail, rfl, ?_, ?_, ?_, ?_⟩
  · rw [hbytes, List.flatMap_map]
    rfl
  · intro x hx
    exact hhead (x.payload c) (by rw [List.head?_map, hx]; rfl)
  · rw [hrecv]
    congr 2
    rw [List.flatMap_map, ← List.flatMap_singleton' (delivered.map (Sent.event c)),
      List.flatMap_map]
    exact List.flatMap_congr fun x hx => (hgood x (by simp [hx])).deliver_eq
  · intro hr
    obtain ⟨hpending, htail⟩ := hlast hr
    exact ⟨List.map_eq_nil_iff.mp hpending, htail⟩

/-- A stream that is short as a whole keeps the buffer short. -/
theorem BufferBelow.of_length {stream chunks : List Bytes} (h : chunks.flatten.length < 2 ^ 31) :
    BufferBelow stream chunks := by
  have hle : ∀ (fs : List Bytes) (n : ℕ), unreadLength fs n ≤ n := by
    intro fs
    induction fs with
    | nil => exact fun n => Nat.le_refl n
    | cons f fs ih =>
      intro n
      rw [unreadLength]
      split
      · exact Nat.le_trans (ih _) (Nat.sub_le _ _)
      · exact Nat.le_refl n
  rintro d ch r rfl
  have hd := hle stream d.flatten.length
  simp only [List.flatten_append, List.flatten_cons, List.length_append] at h
  omega

/-- A codec without compression whose JSON library knows the two boolean texts only. -/
def boolCodec : Codec where
  lib :=
    { dump := fun _ v => if v = .leaf (.bool true) then [116, 114, 117, 101]
        else if v = .leaf (.bool false) then [102, 97, 108, 115, 101] else [110, 117, 108, 108]
      parse := fun _ text =>
        if text = [116, 114, 117, 101] then .ok (.leaf (.bool true))
        else if text = [102, 97, 108, 115, 101] then .ok (.leaf (.bool false))
        else if text = [110, 117, 108, 108] then .ok .invalid
        else .error "unexpected character"
      qCompress := id
      qUncompress := id }
  proto := .json
  comp := none

/-- `true`, a frame around the text `?`, and `false`, cut inside a header, inside a payload and
behind the second frame. -/
theorem receive_chunks_bool :
    boolCodec.receive [] [[0, 0], [0, 4, 116, 114], [117, 101, 0, 0, 0, 1, 63],
      [0, 0, 0, 5, 102, 97, 108, 115, 101]] =
        some ([.onMsg (.leaf (.bool true)), .onError "unexpected character",
          .onMsg (.leaf (.bool false))], []) ∧
      ∃ delivered pending tail, [.msg (.leaf (.bool true)), .malformed [63],
          .msg (.leaf (.bool false))] = delivered ++ pending ∧
        [[0, 0], [0, 4, 116, 114]].flatten = delivered.flatMap (Sent.frame boolCodec) ++ tail ∧
        (∀ x, pending.head? = some x →
          tail <+: x.frame boolCodec ∧ tail.length < (x.frame boolCodec).length) ∧
        boolCodec.receive [] [[0, 0], [0, 4, 116, 114]] =
          some (delivered.map (Sent.event boolCodec), tail) ∧
        (([[117, 101, 0, 0, 0, 1, 63], [0, 0, 0, 5, 102, 97, 108, 115, 101]] :
          List Bytes).flatten = [] → pending = [] ∧ tail = []) := by
  have hcut : ([[0, 0], [0, 4, 116, 114], [117, 101, 0, 0, 0, 1, 63],
      [0, 0, 0, 5, 102, 97, 108, 115, 101]] : List Bytes) = [[0, 0], [0, 4, 116, 114]] ++
        [[117, 101, 0, 0, 0, 1, 63], [0, 0, 0, 5, 102, 97, 108, 115, 101]] := rfl
  refine ⟨by decide, boolCodec.receive_chunks ?_ (by decide) (.of_length (by decide)) hcut⟩
  intro x hx
  simp only [List.mem_cons, List.not_mem_nil, or_false] at hx
  rcases hx with rfl | rfl | rfl
  · exact ⟨by rintro v ⟨⟩; rfl, by rintro v ⟨⟩; rfl, by rintro p ⟨⟩⟩
  · exact ⟨by rintro v ⟨⟩, by rintro v ⟨⟩, by rintro p ⟨⟩; exact ⟨_, rfl⟩⟩
  · exact ⟨by rintro v ⟨⟩; rfl, by rintro v ⟨⟩; rfl, by rintro p ⟨⟩⟩

end Radapter.Wire
