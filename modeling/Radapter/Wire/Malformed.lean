import Radapter.Wire.Overlong
import Radapter.Wire.Process

/-!
# Frames that do not parse

`ReceiveBinary` collects the messages of all frames in a buffer and emits them at the end.
`parseSlipFrames` catches the error of a frame and goes on behind it. `parseLineFrames` does not:
the error of one line leaves `ReceiveBinary`, and with it go the messages of the lines before and
the lines behind.
-/

namespace Radapter.Wire

open Library Slip Line

/-- `BinaryFraming`. -/
inductive BinaryFraming where
  | slip
  | line
  deriving DecidableEq, Repr

section Receive

variable (framing : BinaryFraming) (fromProto : ProtoParser)

/-- `BinaryWorker::ReceiveBinary`: the messages for `SendMsg`, or the text of the exception that
leaves it, and the buffer left. -/
def ReceiveBinary (buffer : Bytes) : Option (Except String (List QVariant) × Bytes) :=
  match framing with
  | .slip => (parseSlipFrames fromProto buffer).map fun r => (.ok (emitted r.1), r.2)
  | .line => parseLineFrames fromProto buffer

/-- The messages that a call has emitted; none when it ends with an exception or does not end. -/
def sentBy : Option (Except String (List QVariant) × Bytes) → List QVariant
  | some (.ok messages, _) => messages
  | some (.error _, _) => []
  | none => []

/-- The complete frames of a buffer. -/
def framesIn (buffer : Bytes) : List Bytes :=
  match framing with
  | .slip => segments buffer
  | .line => completeLines buffer

/-- The message of a frame, none if the frame is malformed. -/
def message (frame : Bytes) : Option QVariant :=
  match framing with
  | .slip => decode fromProto frame
  | .line => (fromProto (chopReturn frame)).toOption

/-- The messages of the well-formed frames are emitted, in their order. -/
def EmitsWellFormed (buffer : Bytes) : Prop :=
  sentBy (ReceiveBinary framing fromProto buffer) =
    (framesIn framing buffer).filterMap (message framing fromProto)

/-- With slip framing, cutting each frame to its length modulo `2 ^ 32` leaves the messages the
same. With line framing all frames are well formed, with lengths that fit an `int`, or none is well
formed. -/
def NoneSuppressed (buffer : Bytes) : Prop :=
  match framing with
  | .slip => (framesIn .slip buffer).filterMap (fun frame => message .slip fromProto (cut frame)) =
      (framesIn .slip buffer).filterMap (message .slip fromProto)
  | .line =>
      (∀ frame ∈ framesIn .line buffer,
        frame.length < 2 ^ 31 ∧ (message .line fromProto frame).isSome = true) ∨
      ∀ frame ∈ framesIn .line buffer, message .line fromProto frame = none

end Receive

variable {framing : BinaryFraming} {fromProto : ProtoParser} {buffer : Bytes}

/-- With slip framing only the cut to 32 bits can suppress a frame. -/
theorem emitsWellFormed_slip_iff :
    EmitsWellFormed .slip fromProto buffer ↔ NoneSuppressed .slip fromProto buffer := by
  have hparse := receiveChunks_stream fromProto [buffer]
  simp only [receiveChunks, List.nil_append, Option.bind_eq_bind, Option.bind_some,
    List.append_nil, List.flatten_cons, List.flatten_nil] at hparse
  obtain ⟨⟨outcomes, rest⟩, houtcomes, heq⟩ := Option.bind_eq_some_iff.mp hparse
  have hmap : outcomes = (segments buffer).map (fun s => parseSlipFrame fromProto (cut s)) :=
    congrArg Prod.fst (Option.some.inj heq)
  simp only [EmitsWellFormed, ReceiveBinary, houtcomes, Option.map_some, sentBy, hmap, emitted_map]
  rfl

/-- The protocol reads the messages of all lines if the lines are well formed. -/
private theorem forall₂_parses {lines : List Bytes}
    (h : ∀ line ∈ lines, (message .line fromProto line).isSome = true) :
    List.Forall₂ (Parses fromProto) lines (lines.filterMap (message .line fromProto)) := by
  induction lines with
  | nil => exact List.Forall₂.nil
  | cons line rest ih =>
    obtain ⟨hline, hrest⟩ := List.forall_mem_cons.mp h
    obtain ⟨v, hv⟩ := Option.isSome_iff_exists.mp hline
    rw [List.filterMap_cons_some hv]
    refine List.Forall₂.cons ?_ (ih hrest)
    unfold message at hv
    unfold Parses
    cases hparse : fromProto (chopReturn line) with
    | error e =>
      rw [hparse] at hv
      cases hv
    | ok w =>
      rw [hparse] at hv
      exact congrArg Except.ok (Option.some.inj hv)

/-- Lines that the protocol reads are well formed, and it reads their messages. -/
private theorem filterMap_of_parses {lines : List Bytes} {messages : List QVariant}
    (h : List.Forall₂ (Parses fromProto) lines messages) :
    (∀ line ∈ lines, (message .line fromProto line).isSome = true) ∧
      lines.filterMap (message .line fromProto) = messages := by
  induction h with
  | nil => exact ⟨(fun _ h => nomatch h), rfl⟩
  | @cons line v rest messages hline _ ih =>
    have hv : message .line fromProto line = some v := by
      rw [message, hline]
      rfl
    refine ⟨List.forall_mem_cons.mpr ⟨by rw [hv]; rfl, ih.1⟩, ?_⟩
    rw [List.filterMap_cons_some hv, ih.2]

/-- With line framing the first malformed frame ends the call. -/
theorem emitsWellFormed_line_iff :
    EmitsWellFormed .line fromProto buffer ↔ NoneSuppressed .line fromProto buffer := by
  by_cases hall : ∀ frame ∈ completeLines buffer,
      frame.length < 2 ^ 31 ∧ (message .line fromProto frame).isSome = true
  · have hreceived := parseLineFrames_ok_iff.mpr
      ⟨fun line hline => (hall line hline).1, forall₂_parses fun line hline => (hall line hline).2,
        rfl⟩
    apply iff_of_true
    · simp only [EmitsWellFormed, ReceiveBinary, hreceived, sentBy]
      rfl
    · exact Or.inl hall
  · -- an exception or an endless loop: nothing is emitted
    have hnothing : sentBy (ReceiveBinary .line fromProto buffer) = [] := by
      cases hresult : ReceiveBinary .line fromProto buffer with
      | none => rfl
      | some r =>
        obtain ⟨result, rest⟩ := r
        cases result with
        | error e => rfl
        | ok messages =>
          obtain ⟨hshort, hparses, -⟩ := parseLineFrames_ok_iff.mp hresult
          exact absurd (fun line hline =>
            ⟨hshort line hline, (filterMap_of_parses hparses).1 line hline⟩) hall
    rw [EmitsWellFormed, hnothing, eq_comm, List.filterMap_eq_nil_iff]
    exact ⟨Or.inr, fun h => h.resolve_left hall⟩

/-- `ReceiveBinary` emits the messages of all well-formed frames, and no others, exactly if no frame
suppresses another. -/
theorem emitsWellFormed_iff :
    EmitsWellFormed framing fromProto buffer ↔ NoneSuppressed framing fromProto buffer := by
  cases framing with
  | slip => exact emitsWellFormed_slip_iff
  | line => exact emitsWellFormed_line_iff

/-- A line that is no MessagePack value, between the lines of the numbers 5 and 6: the exception
takes both messages with it. With slip framing the two are emitted. -/
theorem malformed_suppresses :
    (framesIn .line [5, newline, 0xC1, newline, 6, newline]).filterMap
        (message .line (parseMsgpackProto parseFixint)) =
      [.leaf (.longlong 5), .leaf (.longlong 6)] ∧
    sentBy (ReceiveBinary .line (parseMsgpackProto parseFixint)
      [5, newline, 0xC1, newline, 6, newline]) = [] ∧
    sentBy (ReceiveBinary .slip (parseMsgpackProto parseFixint) [5, END, 0xC1, END, 6, END]) =
      [.leaf (.longlong 5), .leaf (.longlong 6)] :=
  ⟨rfl, rfl, rfl⟩

end Radapter.Wire
