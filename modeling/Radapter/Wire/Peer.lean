import Radapter.Unicode
import Radapter.Wire.SlipWrite

/-!
# Two workers with one configuration

A `BinaryWorker` turns a message into a payload with its protocol, appends a checksum when the
configuration asks for one, escapes the result and ends it with an END. A worker with the same
configuration removes the escapes and hands what it finds to its protocol. The receiver takes no
notice of `crc`.

The file says which messages arrive.
-/

namespace Radapter.Wire.Slip

/-- `BinaryCrc`. -/
inductive BinaryCrc where
  | modbus
  deriving DecidableEq, Repr

/-- `BinaryProtocol`. -/
inductive BinaryProtocol where
  | msgpack
  | text
  deriving DecidableEq, Repr

/-- `BinaryConfig` of a worker with slip framing. -/
structure BinaryConfig where
  protocol : BinaryProtocol
  crc : Option BinaryCrc
  deriving DecidableEq, Repr

/-! ## The checksum -/

/-- `wCRCTable` of `CRC16_Modbus`. -/
def wCRCTable : List (BitVec 32) :=
  [0x0000, 0xC0C1, 0xC181, 0x0140, 0xC301, 0x03C0, 0x0280, 0xC241, 0xC601, 0x06C0, 0x0780, 0xC741,
   0x0500, 0xC5C1, 0xC481, 0x0440, 0xCC01, 0x0CC0, 0x0D80, 0xCD41, 0x0F00, 0xCFC1, 0xCE81, 0x0E40,
   0x0A00, 0xCAC1, 0xCB81, 0x0B40, 0xC901, 0x09C0, 0x0880, 0xC841, 0xD801, 0x18C0, 0x1980, 0xD941,
   0x1B00, 0xDBC1, 0xDA81, 0x1A40, 0x1E00, 0xDEC1, 0xDF81, 0x1F40, 0xDD01, 0x1DC0, 0x1C80, 0xDC41,
   0x1400, 0xD4C1, 0xD581, 0x1540, 0xD701, 0x17C0, 0x1680, 0xD641, 0xD201, 0x12C0, 0x1380, 0xD341,
   0x1100, 0xD1C1, 0xD081, 0x1040, 0xF001, 0x30C0, 0x3180, 0xF141, 0x3300, 0xF3C1, 0xF281, 0x3240,
   0x3600, 0xF6C1, 0xF781, 0x3740, 0xF501, 0x35C0, 0x3480, 0xF441, 0x3C00, 0xFCC1, 0xFD81, 0x3D40,
   0xFF01, 0x3FC0, 0x3E80, 0xFE41, 0xFA01, 0x3AC0, 0x3B80, 0xFB41, 0x3900, 0xF9C1, 0xF881, 0x3840,
   0x2800, 0xE8C1, 0xE981, 0x2940, 0xEB01, 0x2BC0, 0x2A80, 0xEA41, 0xEE01, 0x2EC0, 0x2F80, 0xEF41,
   0x2D00, 0xEDC1, 0xEC81, 0x2C40, 0xE401, 0x24C0, 0x2580, 0xE541, 0x2700, 0xE7C1, 0xE681, 0x2640,
   0x2200, 0xE2C1, 0xE381, 0x2340, 0xE101, 0x21C0, 0x2080, 0xE041, 0xA001, 0x60C0, 0x6180, 0xA141,
   0x6300, 0xA3C1, 0xA281, 0x6240, 0x6600, 0xA6C1, 0xA781, 0x6740, 0xA501, 0x65C0, 0x6480, 0xA441,
   0x6C00, 0xACC1, 0xAD81, 0x6D40, 0xAF01, 0x6FC0, 0x6E80, 0xAE41, 0xAA01, 0x6AC0, 0x6B80, 0xAB41,
   0x6900, 0xA9C1, 0xA881, 0x6840, 0x7800, 0xB8C1, 0xB981, 0x7940, 0xBB01, 0x7BC0, 0x7A80, 0xBA41,
   0xBE01, 0x7EC0, 0x7F80, 0xBF41, 0x7D00, 0xBDC1, 0xBC81, 0x7C40, 0xB401, 0x74C0, 0x7580, 0xB541,
   0x7700, 0xB7C1, 0xB681, 0x7640, 0x7200, 0xB2C1, 0xB381, 0x7340, 0xB101, 0x71C0, 0x7080, 0xB041,
   0x5000, 0x90C1, 0x9181, 0x5140, 0x9301, 0x53C0, 0x5280, 0x9241, 0x9601, 0x56C0, 0x5780, 0x9741,
   0x5500, 0x95C1, 0x9481, 0x5440, 0x9C01, 0x5CC0, 0x5D80, 0x9D41, 0x5F00, 0x9FC1, 0x9E81, 0x5E40,
   0x5A00, 0x9AC1, 0x9B81, 0x5B40, 0x9901, 0x59C0, 0x5880, 0x9841, 0x8801, 0x48C0, 0x4980, 0x8941,
   0x4B00, 0x8BC1, 0x8A81, 0x4A40, 0x4E00, 0x8EC1, 0x8F81, 0x4F40, 0x8D01, 0x4DC0, 0x4C80, 0x8C41,
   0x4400, 0x84C1, 0x8581, 0x4540, 0x8701, 0x47C0, 0x4680, 0x8641, 0x8201, 0x42C0, 0x4380, 0x8341,
   0x4100, 0x81C1, 0x8081, 0x4040]

/-- The loop of `CRC16_Modbus`. A plain `char` is signed, and the index has all bits of the word:
behind its 256 entries the table is read as what the memory has there. -/
def crcLoop (beyond : ℕ → BitVec 32) : BitVec 32 → Bytes → BitVec 32
  | wCRCWord, [] => wCRCWord
  | wCRCWord, b :: rest =>
      let nTemp := (b.toBitVec.signExtend 32 ^^^ wCRCWord).toNat
      crcLoop beyond ((wCRCWord >>> 8) ^^^ (wCRCTable[nTemp]?).getD (beyond nTemp)) rest

/-- `CRC16_Modbus`. -/
def CRC16_Modbus (beyond : ℕ → BitVec 32) (nData : Bytes) : BitVec 16 :=
  (crcLoop beyond 0xFFFF nData).setWidth 16

/-- The two bytes of the checksum as they lie in memory. -/
def crcBytes (c : BitVec 16) : Bytes := [⟨c.setWidth 8⟩, ⟨(c >>> 8).setWidth 8⟩]

/-! ## The worker that sends -/

section Worker

-- The codec, and what the memory has behind the table of the checksum and behind the string that
-- collects a received frame.
variable (DumpMsgPack : QVariant → Except String Bytes)
variable (ParseMsgPackInPlace : Bytes → Except String (QVariant × ℕ))
variable (beyond : ℕ → BitVec 32) (behind : Bytes)

/-- `QMetaType::name` of a value. -/
def metaTypeName : QVariant → String
  | .list _ => "QVariantList"
  | .map _ => "QVariantMap"
  | .leaf .invalid => ""
  | .leaf (.bool _) => "bool"
  | .leaf (.int _) => "int"
  | .leaf (.uint _) => "uint"
  | .leaf (.longlong _) => "qlonglong"
  | .leaf (.float _) => "float"
  | .leaf (.double _) => "double"
  | .leaf (.string _) => "QString"
  | .leaf (.byteArray _) => "QByteArray"

/-- `dumpTextProto`. -/
def dumpTextProto (msg : QVariant) : Except String Bytes :=
  match msg with
  | .leaf (.string s) => .ok (toStdString s)
  | _ => .error ("protocol \"text\" sends strings only, got " ++ metaTypeName msg)

/-- `parseTextProto`, on the frame in front of what the memory has behind it. -/
def parseTextProto : ProtoParser := fun frame =>
  .ok (.leaf (.string (fromUtf8Sized (frame ++ behind) frame.length)))

/-- The dumper of the protocol. -/
def protoDumper (config : BinaryConfig) : QVariant → Except String Bytes :=
  match config.protocol with
  | .msgpack => DumpMsgPack
  | .text => dumpTextProto

/-- The parser of the protocol. -/
def protoParser (config : BinaryConfig) : ProtoParser :=
  match config.protocol with
  | .msgpack => parseMsgpackProto ParseMsgPackInPlace
  | .text => parseTextProto behind

/-- The payload with the checksum behind it. -/
def withCrc (config : BinaryConfig) (wrapped : Bytes) : Bytes :=
  match config.crc with
  | none => wrapped
  | some .modbus =>
      wrapped ++ crcBytes (CRC16_Modbus beyond (wrapped.take (wrapped.length % 2 ^ 32)))

/-- `buffer.append(part.data(), int(part.size()))`: a negative size makes Qt look for the
terminating NUL. -/
def appendPart (part : Part) : Bytes :=
  if asInt part.size < 0 then part.data.takeWhile (· ≠ 0)
  else part.data.take (asInt part.size).toNat

/-- `dumpSlipFrames`. -/
def dumpSlipFrames (config : BinaryConfig) (msg : QVariant) : Except String Bytes := do
  let wrapped ← protoDumper DumpMsgPack config msg
  .ok ((Write (withCrc beyond config wrapped)).flatMap appendPart ++ [END])

/-- `BinaryWorker::OnMsg`: what is handed to `SendBinary`. -/
def OnMsg (config : BinaryConfig) (msg : QVariant) : Except String Bytes :=
  dumpSlipFrames DumpMsgPack beyond config msg

/-- A peer that receives the bytes, however they are cut, emits the message and nothing else, and
has nothing left in its buffer. -/
def Arrives (config : BinaryConfig) (msg : QVariant) (bytes : Bytes) : Prop :=
  ∀ chunks : List Bytes, chunks.flatten = bytes →
    ∃ outcomes, receiveChunks (protoParser ParseMsgPackInPlace behind config) [] chunks =
      some (outcomes, []) ∧ emitted outcomes = [msg]

/-- The codec reads the message back, and it does not consume bytes behind it. -/
def ReadsBack (msg : QVariant) (payload : Bytes) : Prop :=
  ParseMsgPackInPlace payload = .ok (msg, payload.length) ∧
    ∀ tail ≠ [], ∀ v, ParseMsgPackInPlace (payload ++ tail) ≠ .ok (v, (payload ++ tail).length)

/-- No conversion of a size changes it: the payload with its checksum has less than `2 ^ 31`
bytes and takes less than `2 ^ 32` on the wire. -/
def Fits (config : BinaryConfig) (payload : Bytes) : Prop :=
  (withCrc beyond config payload).length < 2 ^ 31 ∧
    (escaped (withCrc beyond config payload)).length < 2 ^ 32

/-- The text can be sent as UTF-8: every surrogate is part of a pair and no byte-order mark stands
in front. -/
def TextKept : QVariant → Prop
  | .leaf (.string s) => validUtf16 s = true ∧ startsWithBom s = false
  | _ => False

/-- The message arrives: there is no checksum, the sizes fit, and a text can be sent as UTF-8. -/
def Sendable (config : BinaryConfig) (msg : QVariant) (payload : Bytes) : Prop :=
  config.crc = none ∧ Fits beyond config payload ∧ (config.protocol = .text → TextKept msg)

end Worker

/-! ## What is sent -/

/-- A part of less than `2 ^ 31` bytes is appended as it is. -/
theorem appendPart_of_lt {part : Part} (h : part.size < 2 ^ 31) : appendPart part = part.bytes := by
  rw [appendPart, asInt_of_lt h, if_neg (by omega), Part.bytes, Int.toNat_natCast]

/-- The parts are no longer than the message, except for the pairs. -/
theorem size_of_mem_writeLoop {collected msg : Bytes} {part : Part}
    (h : part ∈ writeLoop collected msg) :
    part.size ≤ collected.length + msg.length ∨ part.size = 2 := by
  have hcommit {collected rest : Bytes} (h : part ∈ commit collected rest) :
      part.size = collected.length := by
    unfold commit at h
    split at h
    · simp at h
    · rw [List.mem_singleton.mp h]
  induction msg generalizing collected with
  | nil =>
    left
    rw [hcommit h]
    exact Nat.le_add_right _ _
  | cons ch msg ih =>
    unfold writeLoop at h
    split_ifs at h with hesc hend
    all_goals
      try rw [List.mem_append, List.mem_cons] at h
      simp only [List.length_cons]
    · rcases h with h | rfl | h
      · have hsize := hcommit h
        omega
      · exact Or.inr rfl
      · have hrest := ih h
        simp only [List.length_nil] at hrest
        omega
    · rcases h with h | rfl | h
      · have hsize := hcommit h
        omega
      · exact Or.inr rfl
      · have hrest := ih h
        simp only [List.length_nil] at hrest
        omega
    · have hrest := ih h
      simp only [List.length_append, List.length_singleton] at hrest
      omega

/-- A message of less than `2 ^ 31` bytes is appended in its escaped form. -/
theorem flatMap_appendPart {msg : Bytes} (h : msg.length < 2 ^ 31) :
    (Write msg).flatMap appendPart = escaped msg := by
  have hparts : (Write msg).flatMap appendPart = (Write msg).flatMap Part.bytes := by
    apply List.flatMap_congr
    intro part hpart
    apply appendPart_of_lt
    have hsize := size_of_mem_writeLoop hpart
    simp only [List.length_nil] at hsize
    omega
  rw [hparts, flatMap_Write]

/-- A single frame arrives when its parser accepts what was escaped. -/
theorem receiveChunks_frame (fromProto : ProtoParser) {wrapped : Bytes}
    (hshort : (escaped wrapped).length < 2 ^ 32) {chunks : List Bytes}
    (hchunks : chunks.flatten = escaped wrapped ++ [END]) :
    receiveChunks fromProto [] chunks =
      some ([parseSlipFrame fromProto (escaped wrapped)], []) := by
  have hend := END_not_mem_escaped wrapped
  have hsegments : segments (escaped wrapped ++ [END]) = [escaped wrapped] := by
    simp [segments, List.splitOn_append_cons_self_of_not_mem hend]
  have hafter : afterEnd (escaped wrapped ++ [END]) = [] := by
    simp [afterEnd, List.splitOn_append_cons_self_of_not_mem hend]
  rw [receiveChunks_stream, hchunks, hsegments, hafter, List.map_singleton, cut_of_lt hshort]

/-- The message emitted for a single frame. -/
theorem emitted_frame (fromProto : ProtoParser) (wrapped : Bytes) :
    emitted [parseSlipFrame fromProto (escaped wrapped)] = (fromProto wrapped).toOption.toList := by
  have hdecode : decode fromProto (escaped wrapped) = (fromProto wrapped).toOption := by
    rw [decode, Read_escaped]
    rfl
  rw [emitted, List.filterMap_cons, parseSlipFrame_toOption, hdecode]
  cases (fromProto wrapped).toOption <;> rfl

/-! ## Texts -/

/-- What is read as UTF-8 is valid. -/
theorem exists_points_fromUtf8Loop (fuel : ℕ) (bytes : Bytes) :
    ∃ points : List ℕ, (∀ c ∈ points, IsScalar c) ∧ fromUtf8Loop fuel bytes = ofPoints points := by
  induction fuel generalizing bytes with
  | zero => exact ⟨[], by simp, rfl⟩
  | succ fuel ih =>
    cases bytes with
    | nil => exact ⟨[], by simp, rfl⟩
    | cons b rest =>
      rw [fromUtf8Loop]
      cases hread : decodePoint (b :: rest) with
      | none =>
        obtain ⟨points, hpoints, hrest⟩ := ih rest
        refine ⟨0xFFFD :: points, ?_, ?_⟩
        · rintro c (_ | ⟨_, hc⟩)
          · decide
          · exact hpoints c hc
        · simp only [hrest, ofPoints_cons]
          rfl
      | some read =>
        obtain ⟨c, len⟩ := read
        obtain ⟨points, hpoints, hrest⟩ := ih ((b :: rest).drop len)
        obtain ⟨_, _, _, _, _, _, _, _, _, _, hscalar⟩ := decodePoint_eq_some hread
        refine ⟨c :: points, ?_, ?_⟩
        · rintro c' (_ | ⟨_, hc⟩)
          · exact hscalar
          · exact hpoints c' hc
        · simp only [hrest, ofPoints_cons]

/-- A text that was read is valid. -/
theorem validUtf16_fromUtf8 (bytes : Bytes) : validUtf16 (fromUtf8 bytes) = true := by
  obtain ⟨points, hpoints, h⟩ := exists_points_fromUtf8Loop
    (if bytes.take 3 = [0xEF, 0xBB, 0xBF] then bytes.drop 3 else bytes).length
    (if bytes.take 3 = [0xEF, 0xBB, 0xBF] then bytes.drop 3 else bytes)
  rw [fromUtf8, h]
  exact validUtf16_ofPoints hpoints

/-- A text comes back from its UTF-8 form when it is valid and has no mark in front. -/
theorem fromUtf8_toStdString_iff (s : QString) :
    fromUtf8 (toStdString s) = s ↔ validUtf16 s = true ∧ startsWithBom s = false := by
  constructor
  · intro h
    have hvalid : validUtf16 s = true := by
      rw [← h]
      exact validUtf16_fromUtf8 _
    refine ⟨hvalid, ?_⟩
    cases hbom : startsWithBom s with
    | false => rfl
    | true =>
      rw [fromUtf8_toStdString hvalid, if_pos hbom] at h
      cases s with
      | nil => simp [startsWithBom] at hbom
      | cons u rest =>
        have hlen := congrArg List.length h
        simp at hlen
  · rintro ⟨hvalid, hbom⟩
    exact fromUtf8_toStdString_of_valid hvalid hbom

/-- Two bytes are read as two units at least, or as one unit that is no byte-order mark. -/
theorem fromUtf8Loop_two (fuel : ℕ) (c₁ c₂ : UInt8) :
    ∃ u rest, fromUtf8Loop (fuel + 2) [c₁, c₂] = u :: rest ∧ (rest = [] → u ≠ 0xFEFF) := by
  have hone : fromUtf8Loop (fuel + 1) [c₂] ≠ [] := by
    rw [fromUtf8Loop]
    cases decodePoint [c₂] with
    | none => simp
    | some read =>
      simp only [utf16Point]
      split_ifs <;> simp
  rw [fromUtf8Loop]
  cases hread : decodePoint [c₁, c₂] with
  | none => exact ⟨0xFFFD, _, rfl, fun h => absurd h hone⟩
  | some read =>
    obtain ⟨c, len⟩ := read
    obtain ⟨b, tail, rest, least, bits, hbytes, hlen, hhead, hcont, -, -⟩ :=
      decodePoint_eq_some hread
    -- The two bytes are one short sequence, or the second is read on its own.
    have hsize := congrArg List.length hbytes
    simp only [List.length_cons, List.length_append, List.length_nil] at hsize
    have hcases : len = 1 ∨ len = 2 := by omega
    rcases hcases with rfl | rfl
    · simp only [List.drop_succ_cons, List.drop_zero]
      cases hunits : utf16Point c with
      | nil =>
        unfold utf16Point at hunits
        split_ifs at hunits
      | cons u more => exact ⟨u, _, rfl, fun h => absurd (List.append_eq_nil_iff.mp h).2 hone⟩
    · have hsmall : c < 0x800 := by
        obtain ⟨x, rfl⟩ := List.length_eq_one_iff.mp (show tail.length = 1 by omega)
        unfold sequenceHead at hhead
        obtain ⟨hall, hc⟩ := continuation_eq_some hcont
        have hx := hall x (by simp)
        simp only [List.foldl_cons, List.foldl_nil] at hc
        split_ifs at hhead
        all_goals simp_all
        omega
      have hpoint : utf16Point c = [UInt16.ofNat c] := by rw [utf16Point, if_pos (by omega)]
      refine ⟨UInt16.ofNat c, fromUtf8Loop (fuel + 1) [], by simp only [hpoint]; rfl, ?_⟩
      intro _ hmark
      have hnat := congrArg UInt16.toNat hmark
      rw [UInt16.toNat_ofNat', Nat.mod_eq_of_lt (by omega)] at hnat
      have hfeff : (0xFEFF : UInt16).toNat = 0xFEFF := rfl
      omega

/-- A list that stays when its first item is moved to the end has that item last. -/
private theorem eq_of_rotate {α : Type*} {xs : List α} {a b : α} (h : xs ++ [a] = b :: xs) :
    a = b := by
  induction xs with
  | nil => simpa using h
  | cons x xs ih =>
    rw [List.cons_append, List.cons.injEq] at h
    apply ih
    rw [h.2, h.1]

/-- A text with two more bytes behind it is read as another text. -/
theorem fromUtf8_append_ne (s : QString) (c₁ c₂ : UInt8) :
    fromUtf8 (toStdString s ++ [c₁, c₂]) ≠ s := by
  intro h
  have hvalid : validUtf16 s = true := by
    rw [← h]
    exact validUtf16_fromUtf8 _
  obtain ⟨points, hpoints, rfl⟩ := exists_points hvalid
  rw [toStdString_ofPoints hpoints] at h
  have hloop {points : List ℕ} (hpoints : ∀ c ∈ points, IsScalar c) :
      ∃ u rest, fromUtf8Loop (points.flatMap encodePoint ++ [c₁, c₂]).length
        (points.flatMap encodePoint ++ [c₁, c₂]) = ofPoints points ++ u :: rest ∧
        (rest = [] → u ≠ 0xFEFF) := by
    have hle := points_length_le points
    obtain ⟨fuel, hfuel⟩ : ∃ fuel, (points.flatMap encodePoint ++ [c₁, c₂]).length =
        fuel + 2 + points.length := by
      refine ⟨(points.flatMap encodePoint).length - points.length, ?_⟩
      rw [List.length_append, List.length_cons, List.length_singleton]
      omega
    obtain ⟨u, rest, htwo, hmark⟩ := fromUtf8Loop_two fuel c₁ c₂
    exact ⟨u, rest, by rw [hfuel, fromUtf8Loop_append hpoints, htwo], hmark⟩
  cases points with
  | nil =>
    obtain ⟨u, rest, hread, -⟩ := fromUtf8Loop_two 0 c₁ c₂
    rw [fromUtf8] at h
    simp only [List.flatMap_nil, List.nil_append, List.take_succ_cons, List.take_nil,
      List.cons.injEq, List.nil_eq, reduceCtorEq, and_false, if_false] at h
    rw [show [c₁, c₂].length = 0 + 2 from rfl, hread] at h
    cases h
  | cons c points =>
    have hc := hpoints c (by simp)
    have htail : ∀ c ∈ points, IsScalar c := fun c hc => hpoints c (List.mem_cons_of_mem _ hc)
    have hmark := encodePoint_take_three hc (points.flatMap encodePoint ++ [c₁, c₂])
    rw [fromUtf8] at h
    by_cases hfeff : c = 0xFEFF
    · subst hfeff
      obtain ⟨u, rest, hread, hu⟩ := hloop htail
      simp only [List.flatMap_cons, List.append_assoc, if_pos (hmark.mpr rfl)] at h
      have hdrop : (encodePoint 0xFEFF ++ (points.flatMap encodePoint ++ [c₁, c₂])).drop 3 =
          points.flatMap encodePoint ++ [c₁, c₂] := rfl
      rw [hdrop, hread, ofPoints_cons] at h
      have hone : utf16Point 0xFEFF = [0xFEFF] := by decide
      have hlen := congrArg List.length h
      rw [hone] at hlen h
      simp only [List.length_append, List.length_cons, List.length_nil] at hlen
      have hrest : rest = [] := List.length_eq_zero_iff.mp (by omega)
      subst hrest
      exact hu rfl (eq_of_rotate h)
    · obtain ⟨u, rest, hread, -⟩ := hloop hpoints
      simp only [List.flatMap_cons, List.append_assoc,
        if_neg (fun hm => hfeff (hmark.mp hm))] at h hread
      rw [hread] at h
      have hlen := congrArg List.length h
      simp at hlen

/-! ## What arrives -/

section Worker

variable {DumpMsgPack : QVariant → Except String Bytes}
variable {ParseMsgPackInPlace : Bytes → Except String (QVariant × ℕ)}
variable {beyond : ℕ → BitVec 32} {behind : Bytes}
variable {config : BinaryConfig} {msg : QVariant} {payload bytes : Bytes}

/-- The payload is what is behind the checksum, or all of it. -/
theorem withCrc_eq (config : BinaryConfig) (payload : Bytes) :
    (config.crc = none ∧ withCrc beyond config payload = payload) ∨
      (config.crc ≠ none ∧ ∃ c₁ c₂, withCrc beyond config payload = payload ++ [c₁, c₂]) := by
  unfold withCrc
  cases config.crc with
  | none => exact Or.inl ⟨rfl, rfl⟩
  | some kind =>
    right
    exact ⟨by simp, _, _, rfl⟩

/-- When the sizes fit, a message arrives exactly when the receiver parses it from the payload
with the checksum. -/
theorem arrives_iff_parsed (hdump : protoDumper DumpMsgPack config msg = .ok payload)
    (hsend : OnMsg DumpMsgPack beyond config msg = .ok bytes) (hfits : Fits beyond config payload) :
    Arrives ParseMsgPackInPlace behind config msg bytes ↔
      protoParser ParseMsgPackInPlace behind config (withCrc beyond config payload) = .ok msg := by
  have hbytes : bytes = escaped (withCrc beyond config payload) ++ [END] := by
    simp only [OnMsg, dumpSlipFrames, hdump, bind, Except.bind, Except.ok.injEq] at hsend
    rw [← hsend, flatMap_appendPart hfits.1]
  have hlist (r : Except String QVariant) : r.toOption.toList = [msg] ↔ r = .ok msg := by
    cases r <;> simp [Except.toOption]
  rw [← hlist, ← emitted_frame]
  constructor
  · intro h
    obtain ⟨outcomes, hrun, hemit⟩ := h [bytes] (by simp)
    rw [receiveChunks_frame _ hfits.2 (by simp [hbytes])] at hrun
    rw [← hemit]
    exact congrArg (emitted ·.1) (Option.some.inj hrun)
  · intro h chunks hchunks
    exact ⟨_, receiveChunks_frame _ hfits.2 (hchunks.trans hbytes), h⟩

/-- When the sizes fit, a message arrives exactly when there is no checksum and a text can be sent
as UTF-8. -/
theorem arrives_iff_of_fits (hdump : protoDumper DumpMsgPack config msg = .ok payload)
    (hsend : OnMsg DumpMsgPack beyond config msg = .ok bytes)
    (hcodec : config.protocol = .msgpack → ReadsBack ParseMsgPackInPlace msg payload)
    (hfits : Fits beyond config payload) :
    Arrives ParseMsgPackInPlace behind config msg bytes ↔
      config.crc = none ∧ (config.protocol = .text → TextKept msg) := by
  rw [arrives_iff_parsed hdump hsend hfits]
  cases hprotocol : config.protocol with
  | msgpack =>
    obtain ⟨hread, htail⟩ := hcodec hprotocol
    have hparser : protoParser ParseMsgPackInPlace behind config =
        parseMsgpackProto ParseMsgPackInPlace := by
      rw [protoParser, hprotocol]
    rw [hparser]
    rcases @withCrc_eq beyond config payload with ⟨hcrc, h⟩ | ⟨hcrc, c₁, c₂, h⟩
    · simp [h, parseMsgpackProto, hread, hcrc, bind, Except.bind]
    · rw [h]
      refine iff_of_false ?_ (fun hnone => hcrc hnone.1)
      intro hparse
      simp only [parseMsgpackProto] at hparse
      cases hres : ParseMsgPackInPlace (payload ++ [c₁, c₂]) with
      | error e => simp [hres, bind, Except.bind] at hparse
      | ok res =>
        have hpartial := htail [c₁, c₂] (by simp) res.1
        rw [hres] at hpartial
        by_cases hall : res.2 = (payload ++ [c₁, c₂]).length
        · apply hpartial
          rw [← hall]
        · simp only [hres, bind, Except.bind, if_pos hall] at hparse
          cases hparse
  | text =>
    have hparser (frame : Bytes) (hlen : frame.length < 2 ^ 31) :
        protoParser ParseMsgPackInPlace behind config frame =
          .ok (.leaf (.string (fromUtf8 frame))) := by
      rw [protoParser, hprotocol]
      simp only [parseTextProto, fromUtf8Sized_of_lt hlen]
    rw [hparser _ hfits.1]
    rw [protoDumper, hprotocol] at hdump
    cases msg with
    | list items => simp [dumpTextProto] at hdump
    | map entries => simp [dumpTextProto] at hdump
    | leaf scalar =>
      cases scalar with
      | string s =>
        have hpayload : payload = toStdString s := by simpa [dumpTextProto] using hdump.symm
        rcases @withCrc_eq beyond config payload with ⟨hcrc, h⟩ | ⟨hcrc, c₁, c₂, h⟩
        · rw [h, hpayload]
          simp [TextKept, hcrc, fromUtf8_toStdString_iff]
        · refine iff_of_false ?_ (fun hnone => hcrc hnone.1)
          rw [h, hpayload]
          simpa using fromUtf8_append_ne s c₁ c₂
      | _ => simp [dumpTextProto] at hdump

/-- A message without a checksum arrives when the sizes fit and a text can be sent as UTF-8.
When the sizes fit, no other message arrives. -/
theorem arrives_of_sendable (hdump : protoDumper DumpMsgPack config msg = .ok payload)
    (hsend : OnMsg DumpMsgPack beyond config msg = .ok bytes)
    (hcodec : config.protocol = .msgpack → ReadsBack ParseMsgPackInPlace msg payload) :
    (Sendable beyond config msg payload →
        Arrives ParseMsgPackInPlace behind config msg bytes) ∧
      (Fits beyond config payload → Arrives ParseMsgPackInPlace behind config msg bytes →
        Sendable beyond config msg payload) := by
  constructor
  · rintro ⟨hcrc, hfits, htext⟩
    exact (arrives_iff_of_fits hdump hsend hcodec hfits).mpr ⟨hcrc, htext⟩
  · intro hfits harrives
    obtain ⟨hcrc, htext⟩ := (arrives_iff_of_fits hdump hsend hcodec hfits).mp harrives
    exact ⟨hcrc, hfits, htext⟩

end Worker

/-- A number arrives without a checksum. -/
theorem arrives_five :
    Arrives parseFixint [] ⟨.msgpack, none⟩ (.leaf (.longlong 5)) [5, END] := by
  have hcodec : ReadsBack parseFixint (.leaf (.longlong 5)) [5] := by
    refine ⟨by rfl, ?_⟩
    intro tail htail v h
    have hlen := congrArg Prod.snd (Except.ok.inj h)
    exact htail (List.length_eq_zero_iff.mp (by simpa using hlen.symm))
  have hsendable : Sendable (fun _ => 0) ⟨.msgpack, none⟩ (.leaf (.longlong 5)) [5] :=
    ⟨rfl, ⟨by decide, by decide⟩, by simp⟩
  exact (@arrives_of_sendable (fun v => .ok (dumpFixint v)) parseFixint (fun _ => 0) []
    ⟨.msgpack, none⟩ (.leaf (.longlong 5)) [5] [5, END] rfl rfl (fun _ => hcodec)).1 hsendable

/-- With a checksum the same number is sent, and the peer refuses the two bytes behind it. -/
theorem not_arrives_modbus : ∃ bytes,
    OnMsg (fun v => .ok (dumpFixint v)) (fun _ => 0) ⟨.msgpack, some .modbus⟩
      (.leaf (.longlong 5)) = .ok bytes ∧
    ¬ Arrives parseFixint [] ⟨.msgpack, some .modbus⟩ (.leaf (.longlong 5)) bytes := by
  refine ⟨_, rfl, ?_⟩
  intro h
  obtain ⟨outcomes, hrun, hemit⟩ := h [_] (List.flatten_singleton ..)
  have hlost : outcomes = [.error "Error receiving msgpack: Not whole msgpack consumed"] :=
    congrArg Prod.fst (Option.some.inj (hrun.symm.trans (by rfl)))
  rw [hlost] at hemit
  cases hemit

end Radapter.Wire.Slip
