import Radapter.Variant
import Radapter.Library.Splitter

/-!
# Framed messages on byte streams

`wire.hpp` is the codec the stream transports share: a payload is a JSON or MessagePack text,
optionally compressed, and a frame is the payload behind a four-byte big-endian length. The JSON,
MessagePack and zlib libraries are parameters; everything the header computes itself, with its
32-bit arithmetic and its conversions to `int`, is modelled as written.
-/

namespace Radapter.Wire

open Library

/-- `wire::Protocol`. -/
inductive Protocol where
  | json
  | msgpack
  deriving DecidableEq, Repr

/-- `wire::Compression`. -/
inductive Compression where
  | zlib
  deriving DecidableEq, Repr

/-- The libraries the codec calls. -/
structure Libraries where
  /-- `jv::DumpJsonInto` and `jv::DumpMsgPackInto`. -/
  dump : Protocol → QVariant → Bytes
  /-- `jv::ParseJsonInPlace` and `jv::ParseMsgPackInPlace`; an error is the exception's text. -/
  parse : Protocol → Bytes → Except String QVariant
  /-- `qCompress`. -/
  qCompress : Bytes → Bytes
  /-- `qUncompress`, which returns an empty array on failure. -/
  qUncompress : Bytes → Bytes

/-- A configured codec: the libraries with a worker's `protocol` and `compression`. -/
structure Codec where
  lib : Libraries
  proto : Protocol
  comp : Option Compression

variable (c : Codec)

/-- `Encode`: the payload of a message. -/
def Codec.Encode (v : QVariant) : Bytes :=
  let out := c.lib.dump c.proto v
  if c.comp = some .zlib then c.lib.qCompress out else out

/-- `Decode`: the message of a payload, or the text handed to `onError`. -/
def Codec.Decode (msg : Bytes) : Except String QVariant :=
  if msg.isEmpty then .error "empty payload"
  else if c.comp = some .zlib then
    if (c.lib.qUncompress msg).isEmpty then .error "could not uncompress (zlib)"
    else c.lib.parse c.proto (c.lib.qUncompress msg)
  else c.lib.parse c.proto msg

/-- The header `Frame` writes: the payload size as a `quint32`, most significant byte first. -/
def header (size : ℕ) : Bytes :=
  let len := size % 2 ^ 32
  [UInt8.ofNat (len / 2 ^ 24 % 256), UInt8.ofNat (len / 2 ^ 16 % 256),
    UInt8.ofNat (len / 2 ^ 8 % 256), UInt8.ofNat (len % 256)]

/-- A payload behind its header. -/
def framed (payload : Bytes) : Bytes := header payload.length ++ payload

/-- `Frame`: the bytes sent for a message. -/
def Codec.Frame (v : QVariant) : Bytes := framed (c.Encode v)

/-- The length a header announces, read from the first four bytes of a buffer. -/
def announced : Bytes → ℕ
  | b0 :: b1 :: b2 :: b3 :: _ =>
      b0.toNat * 2 ^ 24 + b1.toNat * 2 ^ 16 + b2.toNat * 2 ^ 8 + b3.toNat
  | _ => 0

/-- Conversion of a `quint32` to `int`. -/
def toInt (n : ℕ) : ℤ := if n < 2 ^ 31 then n else n - 2 ^ 32

/-- `QByteArray::mid(pos, len)` for a position inside the array: a negative or excessive
length reaches to the end. -/
def mid (buf : Bytes) (pos : ℕ) (len : ℤ) : Bytes :=
  if len < 0 then buf.drop pos else (buf.drop pos).take len.toNat

/-- `QByteArray::remove(0, len)`: a length that is not positive removes nothing. -/
def remove (buf : Bytes) (len : ℤ) : Bytes := if len ≤ 0 then buf else buf.drop len.toNat

/-- The conditions under which the loop of `DrainFrames` goes on to pop a frame: a whole header
is there, and the size of the buffer as a `quint32` reaches `4 + len`, computed modulo `2 ^ 32`. -/
def passesCheck (buf : Bytes) : Bool :=
  4 ≤ buf.length && (4 + announced buf) % 2 ^ 32 ≤ buf.length % 2 ^ 32

/-- One round of the loop of `DrainFrames`: the payload handed to `Decode` and the buffer left,
or `none` when the loop stops. -/
def drainStep (buf : Bytes) : Option (Bytes × Bytes) :=
  if passesCheck buf then
    some (mid buf 4 (toInt (announced buf)), remove buf (toInt ((4 + announced buf) % 2 ^ 32)))
  else none

/-- A call `DrainFrames` makes to its callbacks. -/
inductive Event where
  | onMsg (v : QVariant)
  | onError (text : String)
  deriving DecidableEq

/-- What the loop does with a payload: an invalid value is dropped without a word. -/
def Codec.deliver (payload : Bytes) : List Event :=
  match c.Decode payload with
  | .error text => [.onError text]
  | .ok v => if v.isValid then [.onMsg v] else []

/-- `DrainFrames` for at most `fuel` rounds: the calls made and the buffer left, or `none` when
the loop is still running. -/
def Codec.drainFor (fuel : ℕ) (buf : Bytes) : Option (List Event × Bytes) :=
  (loop drainStep fuel buf).map (fun r => (r.1.flatMap c.deliver, r.2))

/-- `DrainFrames`. A round that removes nothing repeats forever, so a call that returns at all
returns within one round per byte and one to stop (`drainFor_of_isSome`). -/
def Codec.DrainFrames (buf : Bytes) : Option (List Event × Bytes) :=
  c.drainFor (buf.length + 1) buf

/-- A receiver: `buf += chunk` and a call of `DrainFrames` for every chunk that arrives. `none`
when a call does not return. -/
def Codec.receive (c : Codec) : Bytes → List Bytes → Option (List Event × Bytes)
  | buf, [] => some ([], buf)
  | buf, chunk :: rest => do
      let now ← c.DrainFrames (buf ++ chunk)
      let later ← c.receive now.2 rest
      return (now.1 ++ later.1, later.2)

/-! ## Whole frames -/

/-- A whole frame at the front of a buffer, sizes taken as numbers without bound. -/
def frameSplit (buf : Bytes) : Option (Bytes × Bytes) :=
  if 4 ≤ buf.length ∧ 4 + announced buf ≤ buf.length then
    some ((buf.drop 4).take (announced buf), buf.drop (4 + announced buf))
  else none

/-- Later bytes do not change the announced size. -/
private theorem announced_append {buf : Bytes} (h : 4 ≤ buf.length) (more : Bytes) :
    announced (buf ++ more) = announced buf := by
  match buf, h with
  | b0 :: b1 :: b2 :: b3 :: rest, _ => rfl

/-- Frames as items of a byte stream. -/
def frames : Splitter UInt8 Bytes where
  split := frameSplit
  shorter := by
    intro xs b rest h
    unfold frameSplit at h
    split at h
    · next hwhole =>
      obtain ⟨_, rfl⟩ := Prod.mk.inj (Option.some.inj h)
      rw [List.length_drop]
      omega
    · cases h
  stable := by
    intro xs b rest ys h
    unfold frameSplit at h ⊢
    split at h
    · next hwhole =>
      obtain ⟨rfl, rfl⟩ := Prod.mk.inj (Option.some.inj h)
      rw [announced_append hwhole.1, if_pos (by rw [List.length_append]; omega),
        List.drop_append_of_le_length hwhole.1, List.drop_append_of_le_length hwhole.2,
        List.take_append_of_le_length (by rw [List.length_drop]; omega)]
    · cases h

/-- The header of a payload announces its size, if the size fits. -/
theorem announced_framed {payload : Bytes} (h : payload.length < 2 ^ 32) (more : Bytes) :
    announced (framed payload ++ more) = payload.length := by
  simp only [framed, header, announced, List.cons_append, UInt8.toNat_ofNat']
  omega

/-- A frame is four bytes longer than its payload. -/
@[simp] theorem framed_length (payload : Bytes) : (framed payload).length = 4 + payload.length := by
  rw [framed, List.length_append]
  rfl

/-- A framed payload is split off whole. -/
theorem frames_split_framed {payload : Bytes} (h : payload.length < 2 ^ 32) (more : Bytes) :
    frames.split (framed payload ++ more) = some (payload, more) := by
  have hlen : (framed payload ++ more).length = 4 + payload.length + more.length := by
    rw [List.length_append, framed_length]
  have hdrop : (framed payload ++ more).drop 4 = payload ++ more := by simp [framed, header]
  change frameSplit _ = _
  rw [frameSplit, announced_framed h, if_pos (by omega), hdrop, ← List.drop_drop, hdrop]
  simp

/-- A cut frame is not split off. -/
theorem frames_split_cut {payload buf : Bytes} (h : payload.length < 2 ^ 32)
    (hcut : buf <+: framed payload) (hlt : buf.length < (framed payload).length) :
    frames.split buf = none := by
  obtain ⟨more, hmore⟩ := hcut
  change frameSplit _ = _
  rw [frameSplit, if_neg]
  rintro ⟨hfour, hwhole⟩
  have hann := announced_framed h []
  rw [List.append_nil, ← hmore, announced_append hfour] at hann
  rw [framed_length] at hlt
  omega

/-- Draining part of a stream of frames: the frames that are whole, and the bytes after them. -/
theorem frames_drain_prefix {payloads : List Bytes} {buf : Bytes}
    (hsize : ∀ p ∈ payloads, p.length < 2 ^ 32) (hbuf : buf <+: payloads.flatMap framed) :
    ∃ delivered pending tail, payloads = delivered ++ pending ∧
      buf = delivered.flatMap framed ++ tail ∧
      (∀ p, pending.head? = some p → tail <+: framed p ∧ tail.length < (framed p).length) ∧
      (pending = [] → tail = []) ∧ frames.drain buf = (delivered, tail) := by
  induction payloads generalizing buf with
  | nil =>
    have hnil : buf = [] := by simpa using hbuf
    subst hnil
    exact ⟨[], [], [], by simp, by simp, by simp, by simp, frames.drain_of_none rfl⟩
  | cons p rest ih =>
    have hp : p.length < 2 ^ 32 := hsize p (by simp)
    rw [List.flatMap_cons] at hbuf
    by_cases hwhole : (framed p).length ≤ buf.length
    · obtain ⟨later, rfl⟩ : framed p <+: buf :=
        List.prefix_of_prefix_length_le (List.prefix_append _ _) hbuf hwhole
      rw [List.prefix_append_right_inj] at hbuf
      obtain ⟨delivered, pending, tail, rfl, hlater, hhead, hlast, hdrain⟩ :=
        ih (fun q hq => hsize q (by simp [hq])) hbuf
      refine ⟨p :: delivered, pending, tail, by simp, by simp [hlater], hhead, hlast, ?_⟩
      rw [frames.drain_of_some (frames_split_framed hp later), hdrain]
    · have hcut : buf <+: framed p :=
        List.prefix_of_prefix_length_le hbuf (List.prefix_append _ _) (by omega)
      refine ⟨[], p :: rest, buf, by simp, by simp, ?_, by simp, ?_⟩
      · rintro q hq
        obtain rfl : p = q := by simpa using hq
        exact ⟨hcut, by omega⟩
      · exact frames.drain_of_none (frames_split_cut hp hcut (by omega))

end Radapter.Wire
