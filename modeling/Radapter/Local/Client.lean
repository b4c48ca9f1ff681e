import Radapter.Library.Runs
import Radapter.Wire.Chunks

/-!
# The local-socket client across reconnects

`LocalClient` owns one receive buffer for its whole life. The socket's `readyRead` handler
appends to it and drains it; the `stateChanged` handler reports the state and arms a timer that
reconnects, but does not touch the buffer. `LocalServer` keeps a buffer per connection instead.
So a connection that is cut inside a frame leaves bytes that the next connection's frames are
read behind. Log calls have no effect on the worker and are left out.
-/

namespace Radapter.Local

open Library Wire

/-- `QLocalSocket::LocalSocketState`. -/
inductive SocketState where
  | UnconnectedState
  | ConnectingState
  | ConnectedState
  | ClosingState
  deriving DecidableEq, Repr

/-- `stateName`. -/
def stateName : SocketState → String
  | .UnconnectedState => "UnconnectedState"
  | .ConnectingState => "ConnectingState"
  | .ConnectedState => "ConnectedState"
  | .ClosingState => "ClosingState"

/-- The socket signals the client handles; `readyRead` comes with the bytes `readAll` returns. -/
inductive Signal where
  | stateChanged (st : SocketState)
  | readyRead (bytes : Bytes)

/-- The client: its receive buffer, the calls made for received frames, the `state` events queued
for its listeners, and the number of reconnect timers started. -/
structure Client where
  buf : Bytes := []
  received : List Event := []
  events : List String := []
  timers : ℕ := 0

/-- The two signal handlers. `none` when `DrainFrames` does not return. -/
def Client.handle (c : Codec) (cl : Client) : Signal → Option Client
  | .stateChanged st =>
      some { cl with
        events := cl.events ++ [stateName st]
        timers := if st = .UnconnectedState then cl.timers + 1 else cl.timers }
  | .readyRead bytes => do
      let r ← c.DrainFrames (cl.buf ++ bytes)
      return { cl with buf := r.2, received := cl.received ++ r.1 }

/-- The client after a sequence of signals. -/
def Client.run (c : Codec) : Client → List Signal → Option Client := Library.run (Client.handle c)

/-- The chunks of the connections that have ended and of the current one. -/
structure Connections where
  ended : List (List Bytes) := []
  current : List Bytes := []

/-- A connection ends when the socket becomes unconnected. -/
def Connections.add (k : Connections) : Signal → Connections
  | .readyRead bytes => { k with current := k.current ++ [bytes] }
  | .stateChanged .UnconnectedState => { ended := k.ended ++ [k.current], current := [] }
  | .stateChanged _ => k

/-- The connections of a run, from its signals alone. -/
def connections (signals : List Signal) : Connections := signals.foldl Connections.add {}

/-- All connections of a run in order. -/
def Connections.all (k : Connections) : List (List Bytes) := k.ended ++ [k.current]

/-- The calls due for one connection: those of its complete frames. -/
def dueFor (c : Codec) (chunks : List Bytes) : List Event :=
  (frames.drain chunks.flatten).1.flatMap c.deliver

/-- The client returns from every handler and has made exactly the calls of the complete frames
of each connection, in order. -/
def EmitsPerConnection (c : Codec) (signals : List Signal) : Prop :=
  ∃ cl, Client.run c {} signals = some cl ∧
    cl.received = (connections signals).all.flatMap (dueFor c)

/-- Every connection carries frames of the server, cut anywhere. -/
def FromServer (signals : List Signal) : Prop :=
  ∀ chunks ∈ (connections signals).all, OfFrames chunks.flatten

/-- No chunk brings what a connection has delivered since its last complete frame to `2 ^ 31`
bytes. -/
def BuffersBelow (signals : List Signal) : Prop :=
  ∀ chunks ∈ (connections signals).all, ∀ d ch r, chunks = d ++ ch :: r →
    (frames.drain d.flatten).2.length + ch.length < 2 ^ 31

/-- Every connection that has ended stopped between two frames. -/
def EndsBetweenFrames (signals : List Signal) : Prop :=
  ∀ chunks ∈ (connections signals).ended, (frames.drain chunks.flatten).2 = []

/-- The last signal belongs to the current connection, or ends it. -/
private theorem connections_concat (signals : List Signal) (s : Signal) :
    connections (signals ++ [s]) = (connections signals).add s := by
  rw [connections, List.foldl_concat]
  rfl

/-- One more chunk of a connection adds the calls of the frames it completes. -/
private theorem dueFor_concat (c : Codec) (chunks : List Bytes) (bytes : Bytes) :
    dueFor c (chunks ++ [bytes]) = dueFor c chunks ++
      (frames.drain ((frames.drain chunks.flatten).2 ++ bytes)).1.flatMap c.deliver := by
  simp only [dueFor, List.flatten_append, List.flatten_cons, List.flatten_nil, List.append_nil]
  rw [frames.drain_append, List.flatMap_append]

/-- A connection without bytes owes nothing. -/
private theorem dueFor_nil (c : Codec) : dueFor c [] = [] := by
  rw [dueFor, List.flatten_nil, frames.drain_of_none (by decide)]
  rfl

/-- No other state of the socket ends a connection. -/
private theorem Connections.add_of_ne (k : Connections) {st : SocketState}
    (hst : st ≠ .UnconnectedState) : k.add (.stateChanged st) = k := by
  cases st with
  | UnconnectedState => exact absurd rfl hst
  | ConnectingState => rfl
  | ConnectedState => rfl
  | ClosingState => rfl

/-- A signal keeps a connection as it is or adds one chunk to it. -/
private theorem connections_add_extends {k : Connections} {chunks : List Bytes}
    (hmem : chunks ∈ k.all) (s : Signal) :
    chunks ∈ (k.add s).all ∨ ∃ bytes, chunks ++ [bytes] ∈ (k.add s).all := by
  cases s with
  | readyRead bytes =>
    rcases List.mem_append.mp hmem with hended | hcurrent
    · exact .inl (List.mem_append_left _ hended)
    · rw [List.mem_singleton.mp hcurrent]
      exact .inr ⟨bytes, List.mem_append_right _ (List.mem_singleton_self _)⟩
  | stateChanged st =>
    left
    by_cases hst : st = .UnconnectedState
    · rw [hst]
      exact List.mem_append_left _ hmem
    · rwa [Connections.add_of_ne _ hst]

/-- What the server has sent so far comes from the server. -/
private theorem FromServer.of_concat {signals : List Signal} {s : Signal}
    (h : FromServer (signals ++ [s])) : FromServer signals := by
  rw [FromServer, connections_concat] at h
  intro chunks hmem
  rcases connections_add_extends hmem s with hkeep | ⟨bytes, hmore⟩
  · exact h chunks hkeep
  · have hof := h _ hmore
    rw [List.flatten_append] at hof
    exact hof.of_append

/-- The buffers were small before the last signal. -/
private theorem BuffersBelow.of_concat {signals : List Signal} {s : Signal}
    (h : BuffersBelow (signals ++ [s])) : BuffersBelow signals := by
  rw [BuffersBelow, connections_concat] at h
  intro chunks hmem d ch r hd
  rcases connections_add_extends hmem s with hkeep | ⟨bytes, hmore⟩
  · exact h chunks hkeep d ch r hd
  · exact h _ hmore d ch (r ++ [bytes]) (by rw [hd, List.append_assoc, List.cons_append])

/-- The connections that ended before it did so between two frames. -/
private theorem EndsBetweenFrames.of_concat {signals : List Signal} {s : Signal}
    (h : EndsBetweenFrames (signals ++ [s])) : EndsBetweenFrames signals := by
  rw [EndsBetweenFrames, connections_concat] at h
  intro chunks hmem
  apply h chunks
  cases s with
  | readyRead bytes => exact hmem
  | stateChanged st =>
    by_cases hst : st = .UnconnectedState
    · rw [hst]
      exact List.mem_append_left _ hmem
    · rwa [Connections.add_of_ne _ hst]

/-- Connections that are short as a whole keep the buffer short. -/
private theorem BuffersBelow.of_length {signals : List Signal}
    (h : ∀ chunks ∈ (connections signals).all, chunks.flatten.length < 2 ^ 31) :
    BuffersBelow signals := by
  rintro chunks hmem d ch r rfl
  have hlen := h _ hmem
  have hle := frames.drain_length_le d.flatten
  simp only [List.flatten_append, List.flatten_cons, List.length_append] at hlen
  omega

/-- The run invariant: besides the calls, the buffer holds what the current connection has left
unread, provided every earlier connection stopped between two frames. -/
private theorem run_eq (c : Codec) (signals : List Signal) (hserver : FromServer signals)
    (hbelow : BuffersBelow signals) (hends : EndsBetweenFrames signals) :
    ∃ cl, Client.run c {} signals = some cl ∧
      cl.received = (connections signals).all.flatMap (dueFor c) ∧
      cl.buf = (frames.drain (connections signals).current.flatten).2 := by
  induction signals using List.reverseRecOn with
  | nil => exact ⟨{}, rfl, rfl, rfl⟩
  | append_singleton signals s ih =>
    obtain ⟨cl, hrun, hrecv, hbuf⟩ := ih hserver.of_concat hbelow.of_concat hends.of_concat
    rw [FromServer, connections_concat] at hserver
    rw [BuffersBelow, connections_concat] at hbelow
    rw [EndsBetweenFrames, connections_concat] at hends
    rw [Client.run, run_concat, connections_concat, ← Client.run, hrun, Option.bind_some]
    cases s with
    | readyRead bytes =>
      have hlast := hserver ((connections signals).current ++ [bytes])
        (by simp [Connections.add, Connections.all])
      have hlen := hbelow ((connections signals).current ++ [bytes])
        (by simp [Connections.add, Connections.all]) (connections signals).current bytes [] rfl
      rw [List.flatten_append, List.flatten_singleton] at hlast
      have hdrain := c.DrainFrames_eq_drain (by rw [List.length_append]; exact hlen)
        hlast.after_drain
      simp only [Client.handle, hbuf, hdrain, Connections.add, Connections.all]
      refine ⟨_, rfl, ?_, ?_⟩
      · rw [hrecv, Connections.all, List.flatMap_append, List.flatMap_append,
          List.flatMap_singleton, List.flatMap_singleton, dueFor_concat, List.append_assoc]
      · rw [List.flatten_append, List.flatten_singleton,
          frames.drain_append (connections signals).current.flatten]
    | stateChanged st =>
      by_cases hst : st = .UnconnectedState
      · subst hst
        simp only [Connections.add, Connections.all] at hends ⊢
        have hlast := hends (connections signals).current (by simp)
        refine ⟨_, rfl, ?_, ?_⟩
        · rw [List.flatMap_append, List.flatMap_singleton, dueFor_nil, List.append_nil]
          exact hrecv
        · exact hbuf.trans hlast
      · rw [Connections.add_of_ne _ hst]
        exact ⟨_, rfl, hrecv, hbuf⟩

/-- Where the server's connections stop between two frames, and no receive buffer reaches
`2 ^ 31` bytes, the client has made exactly the calls of each connection's complete frames at
every point of the run. -/
theorem client_emits_per_connection (c : Codec) {signals : List Signal}
    (hserver : FromServer signals) (hbelow : BuffersBelow signals)
    (hends : EndsBetweenFrames signals) :
    ∀ done, done <+: signals → EmitsPerConnection c done := by
  induction signals using List.reverseRecOn with
  | nil =>
    intro done hdone
    rw [List.prefix_nil.mp hdone]
    exact ⟨{}, rfl, rfl⟩
  | append_singleton signals s ih =>
    intro done hdone
    rcases List.prefix_concat_iff.mp hdone with rfl | hdone
    · obtain ⟨cl, hrun, hrecv, _⟩ := run_eq c _ hserver hbelow hends
      exact ⟨cl, hrun, hrecv⟩
    · exact ih hserver.of_concat hbelow.of_concat hends.of_concat done hdone

/-- A frame cut in two by `readyRead`, an idle connection and a frame on the next one. -/
theorem client_emits_two_connections :
    EmitsPerConnection boolCodec [.stateChanged .ConnectedState, .readyRead [0, 0, 0],
      .readyRead [4, 116, 114, 117, 101], .stateChanged .UnconnectedState,
      .stateChanged .ConnectedState, .readyRead [0, 0, 0, 4, 116, 114, 117, 101, 0]] := by
  refine client_emits_per_connection boolCodec ?_ ?_ ?_ _ List.prefix_rfl
  · intro chunks hmem
    simp only [connections, List.foldl, Connections.add, Connections.all, List.nil_append,
      List.cons_append, List.mem_cons, List.not_mem_nil, or_false] at hmem
    rcases hmem with rfl | rfl
    · exact ⟨[[116, 114, 117, 101]], by decide, by decide⟩
    · exact ⟨[[116, 114, 117, 101], []], by decide, by decide⟩
  · exact .of_length (by decide)
  · change ∀ chunks ∈ (connections _).ended, _
    decide

/-- A connection cut inside a header: the four bytes the next connection's frame starts with are
taken for the rest of that header, and its message is lost. -/
theorem client_loses_frame_after_cut :
    FromServer [.readyRead [0, 0], .stateChanged .UnconnectedState,
        .readyRead [0, 0, 0, 4, 116, 114, 117, 101]] ∧
      ¬ EmitsPerConnection boolCodec [.readyRead [0, 0], .stateChanged .UnconnectedState,
        .readyRead [0, 0, 0, 4, 116, 114, 117, 101]] := by
  constructor
  · intro chunks hmem
    simp only [connections, List.foldl, Connections.add, Connections.all, List.nil_append,
      List.cons_append, List.mem_cons, List.not_mem_nil, or_false] at hmem
    rcases hmem with rfl | rfl
    · exact ⟨[[]], by decide, by decide⟩
    · exact ⟨[[116, 114, 117, 101]], by decide, by decide⟩
  · rintro ⟨cl, hrun, hrecv⟩
    have hcall : (Client.run boolCodec {} [.readyRead [0, 0], .stateChanged .UnconnectedState,
        .readyRead [0, 0, 0, 4, 116, 114, 117, 101]]).map Client.received =
        some [.onError "empty payload"] := by
      decide
    rw [hrun, Option.map_some, hrecv, Option.some_inj] at hcall
    revert hcall
    decide

end Radapter.Local
