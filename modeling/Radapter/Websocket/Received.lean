import Radapter.Websocket.Routing
import Radapter.Wire.Chunks

/-!
# What the two servers receive

The WebSocket server and the local-socket server decode the payloads of a client in the same way and
pass them on to listeners, under an identifier of the client if they are configured so. A payload
that cannot be decoded leaves a null behind. The local server drops it there and then; the WebSocket
server leaves that to the notification of its listeners, where a null with an identifier around it
is not a null any more.
-/

namespace Radapter.Websocket

open Library Wire
open Tags (literal)

/-! ## The WebSocket server -/

/-- The payload of a message that has arrived: `msg.toUtf8()` of a text. -/
def Message.payload : Message → Bytes
  | .binary bytes => bytes
  | .text str => toStdString str

/-- The `try` block of `recvFrom`, with the text of the exception. -/
def Config.parse (conf : Config) (msg : Bytes) : Except String QVariant :=
  if msg.isEmpty then .error "Empty msg"
  else if conf.codec.comp = some .zlib then
    if (conf.codec.lib.qUncompress msg).isEmpty then .error "Could not uncompress using zlib"
    else conf.codec.lib.parse conf.codec.proto (conf.codec.lib.qUncompress msg)
  else conf.codec.lib.parse conf.codec.proto msg

/-- `recvFrom`; the error is logged. -/
def Config.recvFrom (conf : Config) (msg : Bytes) : QVariant :=
  match conf.parse msg with
  | .error _ => .invalid
  | .ok fromClient => fromClient

/-- What is passed to `SendMsg` for a payload of the client with this identifier. -/
def Config.sent (conf : Config) (ident : QString) (payload : QVariant) : QVariant :=
  if conf.per_client then .map [(ident, payload)] else payload

/-- The listeners are not told of a null: the guard of `worker_notify`. -/
def notified (msgs : List QVariant) : List QVariant := msgs.filter QVariant.isValid

/-- What the WebSocket server's listeners are told while these messages arrive from a client. -/
def Config.websocketEmits (conf : Config) (addr : QString) (messages : List Message) :
    List QVariant :=
  notified (messages.map (fun message => conf.sent addr (conf.recvFrom message.payload)))

/-! ## The local-socket server -/

/-- The callbacks that the local server hands to `DrainFrames`. -/
def Config.onEvent (conf : Config) (id : QString) : Event → Option QVariant
  | .onMsg v => some (conf.sent id v)
  | .onError _ => none

/-- What the local server's listeners are told while these chunks arrive from a client, whose buffer
is empty at first. `none` when `DrainFrames` does not return. -/
def Config.localEmits (conf : Config) (id : QString) (chunks : List Bytes) :
    Option (List QVariant) :=
  (conf.codec.receive [] chunks).map (fun r => notified (r.1.filterMap (conf.onEvent id)))

/-! ## One payload -/

/-- The two decoders refuse the same payloads, and agree on the others. -/
theorem Decode_eq (conf : Config) (payload : Bytes) :
    (∃ text, conf.parse payload = .error text ∧ ∃ text', conf.codec.Decode payload = .error text') ∨
      ∃ v, conf.parse payload = .ok v ∧ conf.codec.Decode payload = .ok v := by
  rw [Config.parse, Codec.Decode]
  split_ifs
  · exact Or.inl ⟨_, rfl, _, rfl⟩
  · exact Or.inl ⟨_, rfl, _, rfl⟩
  · cases conf.codec.lib.parse conf.codec.proto (conf.codec.lib.qUncompress payload) with
    | error text => exact Or.inl ⟨text, rfl, text, rfl⟩
    | ok v => exact Or.inr ⟨v, rfl, rfl⟩
  · cases conf.codec.lib.parse conf.codec.proto payload with
    | error text => exact Or.inl ⟨text, rfl, text, rfl⟩
    | ok v => exact Or.inr ⟨v, rfl, rfl⟩

/-- The local server passes on what the WebSocket server reads, unless it is a null. -/
theorem deliver_onEvent (conf : Config) (id : QString) (payload : Bytes) :
    (conf.codec.deliver payload).filterMap (conf.onEvent id) =
      if (conf.recvFrom payload).isValid then [conf.sent id (conf.recvFrom payload)] else [] := by
  rcases Decode_eq conf payload with ⟨text, hparse, text', hdecode⟩ | ⟨v, hparse, hdecode⟩
  · rw [Codec.deliver, Config.recvFrom, hparse, hdecode]
    rfl
  · rw [Codec.deliver, Config.recvFrom, hparse, hdecode]
    cases hvalid : v.isValid with
    | true => simp [hvalid, Config.onEvent]
    | false => simp [hvalid]

/-- A message that names its client is never null. -/
theorem sent_isValid {conf : Config} {ident : QString} {v : QVariant} :
    (conf.sent ident v).isValid = (conf.per_client || v.isValid) := by
  rw [Config.sent]
  split_ifs with hper
  · rw [hper]
    rfl
  · rw [Bool.not_eq_true] at hper
    rw [hper, Bool.false_or]

/-- Different values are passed on as different messages. -/
theorem sent_injective (conf : Config) (ident : QString) :
    Function.Injective (conf.sent ident) := by
  intro v w h
  rw [Config.sent, Config.sent] at h
  split_ifs at h
  · simpa using h
  · exact h

/-! ## All payloads -/

/-- The values that the WebSocket server reads. -/
def Config.values (conf : Config) (messages : List Message) : List QVariant :=
  messages.map (fun message => conf.recvFrom message.payload)

/-- The WebSocket server's listeners are told of every value when the identifier is put around it,
and else of those that are not null. -/
theorem websocketEmits_eq (conf : Config) (addr : QString) (messages : List Message) :
    conf.websocketEmits addr messages =
      ((conf.values messages).filter (fun v => conf.per_client || v.isValid)).map
        (conf.sent addr) := by
  have hmap : messages.map (fun message => conf.sent addr (conf.recvFrom message.payload)) =
      (conf.values messages).map (conf.sent addr) := by
    rw [Config.values, List.map_map]
    rfl
  rw [Config.websocketEmits, notified, hmap, List.filter_map]
  congr 2
  funext v
  exact sent_isValid

/-- The local server tells its listeners of the values that are not null. -/
private theorem filterMap_onEvent (conf : Config) (id : QString) (messages : List Message) :
    ((messages.map Message.payload).flatMap conf.codec.deliver).filterMap (conf.onEvent id) =
      ((conf.values messages).filter QVariant.isValid).map (conf.sent id) := by
  induction messages with
  | nil => rfl
  | cons message rest ih =>
    rw [List.map_cons, List.flatMap_cons, List.filterMap_append, ih, deliver_onEvent,
      Config.values, Config.values, List.map_cons, List.filter_cons]
    split_ifs
    · rfl
    · rfl

/-- The local server's listeners are told of those that are not null. -/
theorem localEmits_eq (conf : Config) (id : QString) {messages : List Message}
    {chunks : List Bytes}
    (hchunks : chunks.flatten = messages.flatMap (fun message => framed message.payload))
    (hbelow : BufferBelow (messages.map (fun message => framed message.payload)) chunks) :
    conf.localEmits id chunks =
      some (((conf.values messages).filter QVariant.isValid).map (conf.sent id)) := by
  have hstream : chunks.flatten = (messages.map Message.payload).flatMap framed := by
    rw [hchunks, List.flatMap_map]
  obtain ⟨delivered, pending, tail, hsplit, -, -, hrecv, hlast⟩ :=
    conf.codec.receive_payloads hstream (by rw [List.map_map]; exact hbelow)
      (List.append_nil chunks).symm
  obtain ⟨rfl, rfl⟩ := hlast rfl
  rw [List.append_nil] at hsplit
  rw [Config.localEmits, hrecv, ← hsplit, Option.map_some, filterMap_onEvent, notified,
    List.filter_eq_self.mpr]
  intro msg hmsg
  obtain ⟨v, hv, rfl⟩ := List.mem_map.mp hmsg
  rw [sent_isValid, (List.mem_filter.mp hv).2, Bool.or_true]

/-! ## Agreement -/

/-- The two servers tell their listeners of the same values, each with its own identifier of the
client, and of nothing for a payload that cannot be decoded. -/
structure Agree (conf : Config) (addr id : QString) (messages : List Message)
    (chunks : List Bytes) : Prop where
  same : ∃ values : List QVariant,
    conf.websocketEmits addr messages = values.map (conf.sent addr) ∧
    conf.localEmits id chunks = some (values.map (conf.sent id))
  silent : ∀ message ∈ messages, (∃ text, conf.codec.Decode message.payload = .error text) →
    conf.websocketEmits addr [message] = [] ∧
      (conf.codec.deliver message.payload).filterMap (conf.onEvent id) = []

/-- A payload that cannot be decoded is read as a null. -/
theorem recvFrom_of_refused {conf : Config} {payload : Bytes} {text : String}
    (h : conf.codec.Decode payload = .error text) : conf.recvFrom payload = .invalid := by
  rcases Decode_eq conf payload with ⟨text', hparse, -⟩ | ⟨v, -, hdecode⟩
  · rw [Config.recvFrom, hparse]
  · rw [h] at hdecode
    cases hdecode

/-- The payloads are decoded to values that are not null if the values that the WebSocket server
reads are not null. -/
theorem decoded_iff (conf : Config) (messages : List Message) :
    (∀ message ∈ messages, ∃ v, conf.codec.Decode message.payload = .ok v ∧ v.isValid = true) ↔
      ∀ v ∈ conf.values messages, v.isValid = true := by
  rw [Config.values, List.forall_mem_map]
  apply forall₂_congr
  intro message _
  rcases Decode_eq conf message.payload with ⟨text, hparse, text', hdecode⟩ | ⟨v, hparse, hdecode⟩
  · simp [Config.recvFrom, hparse, hdecode]
  · simp [Config.recvFrom, hparse, hdecode]

/-- The two servers agree if and only if no identifiers are put around values or no payload leaves a
null behind: none is refused, and none is a null. -/
theorem agree_iff (conf : Config) (addr id : QString) {messages : List Message}
    {chunks : List Bytes}
    (hchunks : chunks.flatten = messages.flatMap (fun message => framed message.payload))
    (hbelow : BufferBelow (messages.map (fun message => framed message.payload)) chunks) :
    Agree conf addr id messages chunks ↔
      conf.per_client = false ∨ ∀ message ∈ messages, ∃ v,
        conf.codec.Decode message.payload = .ok v ∧ v.isValid = true := by
  have hvalues := decoded_iff conf messages
  constructor
  · rintro ⟨⟨values, hwebsocket, hlocal⟩, -⟩
    cases hper : conf.per_client with
    | false => exact Or.inl rfl
    | true =>
      refine Or.inr (hvalues.mpr ?_)
      rw [websocketEmits_eq, hper] at hwebsocket
      simp only [Bool.true_or, List.filter_true] at hwebsocket
      rw [localEmits_eq conf id hchunks hbelow, Option.some.injEq] at hlocal
      have hall := List.map_injective_iff.mpr (sent_injective conf addr) hwebsocket
      have hvalid := List.map_injective_iff.mpr (sent_injective conf id) hlocal
      rw [← hall, List.filter_eq_self] at hvalid
      exact hvalid
  · intro hcond
    constructor
    · refine ⟨(conf.values messages).filter QVariant.isValid, ?_,
        localEmits_eq conf id hchunks hbelow⟩
      rw [websocketEmits_eq]
      congr 1
      apply List.filter_congr
      intro v hv
      rcases hcond with hper | hall
      · rw [hper, Bool.false_or]
      · rw [hvalues.mp hall v hv, Bool.or_true]
    · rintro message hmem ⟨text, hrefused⟩
      rcases hcond with hper | hall
      · have hnull := recvFrom_of_refused hrefused
        refine ⟨?_, ?_⟩
        · rw [websocketEmits_eq, Config.values, List.map_singleton, hnull, hper]
          rfl
        · rw [deliver_onEvent, hnull]
          rfl
      · obtain ⟨v, hdecode, -⟩ := hall message hmem
        rw [hrefused] at hdecode
        cases hdecode

/-- `true`, and a payload that no library can read, one frame in two chunks. -/
def routed (per_client : Bool) : Config := ⟨boolCodec, per_client⟩

/-- One value and one payload that cannot be read: both servers tell of the value alone. -/
theorem agree_broadcast : Agree (routed false) (literal "10.0.0.1:5000") (literal "1")
    [.text (literal "true"), .binary [63]] [[0, 0, 0, 4, 116], [114, 117, 101, 0, 0, 0, 1, 63]] :=
  (agree_iff _ _ _ (by decide) (.of_length (by decide))).mpr (Or.inl rfl)

/-- Behind its address, the WebSocket server makes a message of the payload that it could not
read. -/
theorem not_agree_routed :
    (routed true).websocketEmits (literal "10.0.0.1:5000") [.binary [63]] =
        [.map [(literal "10.0.0.1:5000", .invalid)]] ∧
      (routed true).localEmits (literal "1") [[0, 0, 0, 1, 63]] = some [] ∧
      ¬ Agree (routed true) (literal "10.0.0.1:5000") (literal "1") [.binary [63]]
        [[0, 0, 0, 1, 63]] := by
  refine ⟨by decide, by decide, fun h => ?_⟩
  have hnothing := (h.silent (.binary [63]) (List.mem_singleton_self _) ⟨_, rfl⟩).1
  exact absurd hnothing (by decide)

end Radapter.Websocket
