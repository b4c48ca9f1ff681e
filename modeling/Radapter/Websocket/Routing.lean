import Radapter.Library.Assoc
import Radapter.Library.Runs
import Radapter.Tags.Names
import Radapter.Wire.Frame

/-!
# Whom the WebSocket server reaches

The server finds its clients in a map from addresses to sockets. A socket enters the map when it is
accepted, and the entry under its address is removed when it is deleted, which is some time after it
was disconnected. In the meantime a new client may have come from the same address: then the entry
that is removed is the one of the new client.
-/

namespace Radapter.Websocket

open Library Wire
open Tags (literal)

/-! ## Sending -/

/-- The part of `WsServerConfig` that the messages depend on. -/
structure Config where
  codec : Codec
  per_client : Bool

def Config.isBinary (conf : Config) : Bool := conf.codec.comp.isSome || conf.codec.proto != .json

/-- The same lines as in `wire::Encode`. -/
def Config.prepareMsg (conf : Config) (state : QVariant) : Bytes := conf.codec.Encode state

inductive Message where
  | binary (bytes : Bytes)
  | text (str : QString)
  deriving DecidableEq

/-- What is sent for a value. -/
def Config.message (conf : Config) (v : QVariant) : Message :=
  if conf.isBinary then .binary (conf.prepareMsg v) else .text (fromUtf8 (conf.prepareMsg v))

/-- The sockets that a message names, with what each is sent. -/
def Config.targeted (conf : Config) (socks : List (QString × ℕ)) : QVariant → List (ℕ × Message)
  | .map m =>
      if conf.per_client then
        m.filterMap (fun entry =>
          (socks.lookup entry.1).map (fun sock => (sock, conf.message entry.2)))
      else []
  | .list _ => []
  | .leaf _ => []

/-- `OnMsg`: the messages that are sent, each with its socket. -/
def Config.OnMsg (conf : Config) (socks : List (QString × ℕ)) (msg : QVariant) :
    List (ℕ × Message) :=
  if !msg.isValid then []
  else if (conf.targeted socks msg).isEmpty then
    socks.map (fun entry => (entry.2, conf.message msg))
  else conf.targeted socks msg

/-! ## Sockets -/

structure Sock where
  addr : QString
  connected : Bool
  deriving DecidableEq

/-- The sockets that have not been deleted, numbered as they were accepted; the map; how many have
been accepted; and the events sent. -/
structure Server where
  alive : List (ℕ × Sock)
  socks : List (QString × ℕ)
  accepted : ℕ
  events : List QVariant

def start : Server where
  alive := []
  socks := []
  accepted := 0
  events := []

/-- An event with the address of a client. -/
def addressEvent (key : String) (addr : QString) : QVariant :=
  .map [(literal key, .leaf (.string addr))]

inductive Action where
  /-- `accept`, with the address of the peer. -/
  | accept (addr : QString)
  /-- `QWebSocket::disconnected`. The handler leaves the socket to be deleted later. -/
  | disconnected (c : ℕ)
  /-- The socket is deleted. -/
  | destroyed (c : ℕ)
  deriving DecidableEq

/-- One step. No two sockets are connected to the same peer at a time; a socket is disconnected
once, and deleted after that. -/
def step (s : Server) : Action → Option Server
  | .accept addr =>
      if s.alive.any (fun entry => entry.2.connected && entry.2.addr == addr) then none
      else some
        { alive := s.alive ++ [(s.accepted, ⟨addr, true⟩)]
          socks := Assoc.put addr s.accepted s.socks
          accepted := s.accepted + 1
          events := s.events ++ [addressEvent "connected" addr] }
  | .disconnected c => (s.alive.lookup c).bind fun sock =>
      if sock.connected then some
        { s with
          alive := Assoc.put c { sock with connected := false } s.alive
          events := s.events ++ [addressEvent "disconnected" sock.addr] }
      else none
  | .destroyed c => (s.alive.lookup c).bind fun sock =>
      if sock.connected then none
      else some { s with alive := Assoc.erase c s.alive, socks := Assoc.erase sock.addr s.socks }

/-- The client is connected and has this address. -/
def Server.Connected (s : Server) (c : ℕ) (addr : QString) : Prop :=
  s.alive.lookup c = some ⟨addr, true⟩

def Server.isConnected (s : Server) (c : ℕ) : Bool :=
  (s.alive.lookup c).any Sock.connected

/-- Of the messages sent, those that arrive: a socket that is not connected sends nothing. -/
def Server.received (s : Server) (sends : List (ℕ × Message)) : List (ℕ × Message) :=
  sends.filter (fun send => s.isConnected send.1)

/-- Every connected client stands in the map under its address. A broadcast reaches the connected
clients and a targeted message those that it names, each of them once. -/
structure Reaches (conf : Config) (s : Server) : Prop where
  routed : ∀ c addr, s.Connected c addr → s.socks.lookup addr = some c
  broadcast : ∀ msg, msg.isValid = true → conf.targeted s.socks msg = [] → ∀ c message,
    (c, message) ∈ s.received (conf.OnMsg s.socks msg) ↔
      (∃ addr, s.Connected c addr) ∧ message = conf.message msg
  targeted : ∀ msg, msg.isValid = true → conf.targeted s.socks msg ≠ [] → ∀ c message,
    (c, message) ∈ s.received (conf.OnMsg s.socks msg) ↔
      ∃ m addr v, msg = .map m ∧ (addr, v) ∈ m ∧ s.Connected c addr ∧ message = conf.message v
  once : ∀ msg, (∀ m, msg = .map m → Assoc.Distinct m) →
    ((s.received (conf.OnMsg s.socks msg)).map Prod.fst).Nodup

/-! ## What the steps keep -/

/-- An entry of the map is a socket that has not been deleted and has the address of the entry, and
every connected client has its entry. -/
structure Kept (s : Server) : Prop where
  below : ∀ c sock, s.alive.lookup c = some sock → c < s.accepted
  distinct : Assoc.Distinct s.socks
  entries : ∀ addr c, s.socks.lookup addr = some c →
    ∃ sock, s.alive.lookup c = some sock ∧ sock.addr = addr
  routed : ∀ c addr, s.Connected c addr → s.socks.lookup addr = some c

/-- A connected client has an address. -/
theorem isConnected_iff {s : Server} {c : ℕ} :
    s.isConnected c = true ↔ ∃ addr, s.Connected c addr := by
  rw [Server.isConnected, Option.any_eq_true]
  constructor
  · rintro ⟨⟨addr, connected⟩, hlookup, rfl⟩
    exact ⟨addr, hlookup⟩
  · rintro ⟨addr, hconnected⟩
    exact ⟨⟨addr, true⟩, hconnected, rfl⟩

/-- What was sent arrives at the clients that are connected. -/
theorem mem_received {s : Server} {sends : List (ℕ × Message)} {c : ℕ} {message : Message} :
    (c, message) ∈ s.received sends ↔ (c, message) ∈ sends ∧ ∃ addr, s.Connected c addr := by
  rw [Server.received, List.mem_filter, isConnected_iff]

/-- A message names its clients by their addresses. -/
theorem mem_targeted {conf : Config} {socks : List (QString × ℕ)} {msg : QVariant} {c : ℕ}
    {message : Message} : (c, message) ∈ conf.targeted socks msg ↔
      conf.per_client = true ∧ ∃ m addr v, msg = .map m ∧ (addr, v) ∈ m ∧
        socks.lookup addr = some c ∧ message = conf.message v := by
  cases msg with
  | leaf v => simp [Config.targeted]
  | list l => simp [Config.targeted]
  | map m =>
    rw [Config.targeted]
    split_ifs with hper
    · rw [List.mem_filterMap]
      constructor
      · rintro ⟨⟨addr, v⟩, hmem, hsend⟩
        obtain ⟨sock, hsock, heq⟩ := Option.map_eq_some_iff.mp hsend
        obtain ⟨rfl, rfl⟩ := Prod.mk.inj heq
        exact ⟨hper, m, addr, v, rfl, hmem, hsock, rfl⟩
      · rintro ⟨-, m', addr, v, heq, hmem, hsock, rfl⟩
        obtain rfl := QVariant.map.inj heq
        exact ⟨(addr, v), hmem, by rw [hsock]; rfl⟩
    · simp [hper]

/-- An entry that leads to a connected client has the client's address. -/
theorem Kept.addr_eq {s : Server} (h : Kept s) {c : ℕ} {addr addr' : QString}
    (hentry : s.socks.lookup addr = some c) (hconnected : s.Connected c addr') : addr = addr' := by
  obtain ⟨sock, hsock, rfl⟩ := h.entries addr c hentry
  rw [hconnected] at hsock
  rw [← Option.some.inj hsock]

/-- Two entries lead to different sockets. -/
theorem Kept.entry_inj {s : Server} (h : Kept s) {c : ℕ} {addr addr' : QString}
    (hentry : s.socks.lookup addr = some c) (hother : s.socks.lookup addr' = some c) :
    addr = addr' := by
  obtain ⟨sock, hsock, rfl⟩ := h.entries addr c hentry
  obtain ⟨sock', hsock', rfl⟩ := h.entries addr' c hother
  rw [Option.some.inj (hsock.symm.trans hsock')]

/-- The sockets of the map stand in it once. -/
private theorem Kept.nodup_socks {s : Server} (h : Kept s) :
    (s.socks.map Prod.snd).Nodup := by
  refine List.Nodup.map_on ?_ (List.Nodup.of_map Prod.fst h.distinct)
  rintro ⟨addr, c⟩ hmem ⟨addr', c'⟩ hmem' rfl
  have haddr := h.entry_inj (Assoc.lookup_of_mem h.distinct hmem)
    (Assoc.lookup_of_mem h.distinct hmem')
  rw [haddr]

/-- A message names a socket once, if it has every key once. -/
private theorem Kept.nodup_targeted {s : Server} (h : Kept s) (conf : Config) {msg : QVariant}
    (hmsg : ∀ m, msg = .map m → Assoc.Distinct m) :
    ((conf.targeted s.socks msg).map Prod.fst).Nodup := by
  cases msg with
  | leaf v => exact List.nodup_nil
  | list l => exact List.nodup_nil
  | map m =>
    rw [Config.targeted]
    split_ifs
    · have hdistinct := hmsg m rfl
      clear hmsg
      induction m with
      | nil => exact List.nodup_nil
      | cons entry rest ih =>
        obtain ⟨hfirst, hrest⟩ := List.nodup_cons.mp hdistinct
        rw [List.filterMap_cons]
        cases hsock : s.socks.lookup entry.1 with
        | none => exact ih hrest
        | some c =>
          refine List.nodup_cons.mpr ⟨fun hmem => ?_, ih hrest⟩
          obtain ⟨⟨c', message⟩, hsend, rfl⟩ := List.mem_map.mp hmem
          obtain ⟨⟨addr, v⟩, hentry, hsend⟩ := List.mem_filterMap.mp hsend
          obtain ⟨sock, hother, heq⟩ := Option.map_eq_some_iff.mp hsend
          obtain ⟨rfl, -⟩ := Prod.mk.inj heq
          apply hfirst
          rw [h.entry_inj hsock hother]
          exact List.mem_map_of_mem hentry
    · exact List.nodup_nil

/-- While every connected client has its entry, messages reach whom they should. -/
theorem Kept.reaches {s : Server} (h : Kept s) (conf : Config) : Reaches conf s := by
  constructor
  · exact h.routed
  · intro msg hvalid hnone c message
    rw [mem_received, Config.OnMsg, hvalid, hnone]
    simp only [Bool.not_true, Bool.false_eq_true, if_false, List.isEmpty_nil, if_true,
      List.mem_map, Prod.mk.injEq]
    constructor
    · rintro ⟨⟨entry, -, -, rfl⟩, hconnected⟩
      exact ⟨hconnected, rfl⟩
    · rintro ⟨⟨addr, hconnected⟩, rfl⟩
      have hmem := Assoc.mem_of_lookup (h.routed c addr hconnected)
      exact ⟨⟨(addr, c), hmem, rfl, rfl⟩, addr, hconnected⟩
  · intro msg hvalid hsome c message
    rw [mem_received, Config.OnMsg, hvalid, List.isEmpty_eq_false_iff.mpr hsome]
    simp only [Bool.not_true, Bool.false_eq_true, if_false]
    rw [mem_targeted]
    constructor
    · rintro ⟨⟨-, m, addr, v, rfl, hmem, hsock, rfl⟩, addr', hconnected⟩
      obtain rfl := h.addr_eq hsock hconnected
      exact ⟨m, addr, v, rfl, hmem, hconnected, rfl⟩
    · rintro ⟨m, addr, v, rfl, hmem, hconnected, rfl⟩
      obtain ⟨send, hsend⟩ := List.exists_mem_of_ne_nil _ hsome
      obtain ⟨hper, -⟩ := mem_targeted.mp (show (send.1, send.2) ∈ _ from hsend)
      exact ⟨⟨hper, m, addr, v, rfl, hmem, h.routed c addr hconnected, rfl⟩, addr, hconnected⟩
  · intro msg hmsg
    refine List.Nodup.sublist (List.filter_sublist.map Prod.fst) ?_
    rw [Config.OnMsg]
    split_ifs
    · exact List.nodup_nil
    · rw [List.map_map]
      exact h.nodup_socks
    · exact h.nodup_targeted conf hmsg

/-- A socket is deleted while no client is connected that came from its address. -/
def NoneTookOver (s : Server) (a : Action) : Prop :=
  ∀ c old, a = .destroyed c → s.alive.lookup c = some old →
    ∀ d addr, s.Connected d addr → addr ≠ old.addr

/-! ## The three steps -/

/-- A new client takes its address in the map. -/
private theorem Kept.accept {s t : Server} (h : Kept s) {addr : QString}
    (hstep : step s (.accept addr) = some t) : Kept t := by
  obtain ⟨hnone, heq⟩ := Option.ite_none_left_eq_some.mp hstep
  obtain rfl := Option.some.inj heq
  have hfree : s.alive.lookup s.accepted = none := by
    cases hlookup : s.alive.lookup s.accepted with
    | none => rfl
    | some sock => exact absurd (h.below _ sock hlookup) (lt_irrefl _)
  have hlookup := Assoc.lookup_concat hfree (⟨addr, true⟩ : Sock)
  have hother : ∀ c addr', s.Connected c addr' → addr' ≠ addr := by
    rintro c addr' hconnected rfl
    apply hnone
    exact List.any_eq_true.mpr ⟨_, Assoc.mem_of_lookup hconnected, by simp⟩
  constructor
  · intro c sock hsock
    rw [hlookup] at hsock
    split_ifs at hsock with hc
    · rw [hc]
      exact Nat.lt_succ_self _
    · exact Nat.lt_succ_of_lt (h.below c sock hsock)
  · exact Assoc.distinct_put addr s.accepted h.distinct
  · intro addr' c hentry
    rcases Assoc.of_lookup_put hentry with ⟨rfl, rfl⟩ | ⟨-, hold⟩
    · exact ⟨⟨addr', true⟩, by rw [hlookup, if_pos rfl], rfl⟩
    · obtain ⟨sock, hsock, haddr'⟩ := h.entries addr' c hold
      have hne : c ≠ s.accepted := (h.below c sock hsock).ne
      exact ⟨sock, by rw [hlookup, if_neg hne, hsock], haddr'⟩
  · intro c addr' hconnected
    rw [Server.Connected, hlookup] at hconnected
    split_ifs at hconnected with hc
    · obtain ⟨rfl, -⟩ := Sock.mk.inj (Option.some.inj hconnected)
      rw [hc, Assoc.lookup_put_self]
    · rw [Assoc.lookup_put_ne (hother c addr' hconnected)]
      exact h.routed c addr' hconnected

/-- The entry of a client stays until its socket is deleted. -/
private theorem Kept.disconnected {s t : Server} (h : Kept s) {c : ℕ}
    (hstep : step s (.disconnected c) = some t) : Kept t := by
  obtain ⟨old, hold, hstep⟩ := Option.bind_eq_some_iff.mp hstep
  obtain ⟨hconnected, rfl⟩ := of_guarded hstep
  have hself := Assoc.lookup_put_self c { old with connected := false } s.alive
  have hother : ∀ d, d ≠ c → (Assoc.put c { old with connected := false } s.alive).lookup d =
      s.alive.lookup d := fun d hd => Assoc.lookup_put_ne hd _ s.alive
  constructor
  · intro d sock hsock
    by_cases hd : d = c
    · subst hd
      exact h.below d old hold
    · exact h.below d sock (hother d hd ▸ hsock)
  · exact h.distinct
  · intro addr d hentry
    obtain ⟨sock, hsock, haddr⟩ := h.entries addr d hentry
    by_cases hd : d = c
    · subst hd
      obtain rfl := Option.some.inj (hold.symm.trans hsock)
      exact ⟨_, hself, haddr⟩
    · exact ⟨sock, (hother d hd).trans hsock, haddr⟩
  · intro d addr hd
    rw [Server.Connected] at hd
    by_cases hdc : d = c
    · rw [hdc, hself] at hd
      cases (Sock.mk.inj (Option.some.inj hd)).2
    · exact h.routed d addr ((hother d hdc).symm.trans hd)

/-- What the deletion of a socket leaves behind. -/
private theorem destroyed_cases {s t : Server} {c : ℕ} (hstep : step s (.destroyed c) = some t) :
    ∃ old, s.alive.lookup c = some old ∧ old.connected = false ∧
      t = { s with alive := Assoc.erase c s.alive, socks := Assoc.erase old.addr s.socks } := by
  obtain ⟨old, hold, hstep⟩ := Option.bind_eq_some_iff.mp hstep
  obtain ⟨hconnected, heq⟩ := Option.ite_none_left_eq_some.mp hstep
  exact ⟨old, hold, Bool.eq_false_iff.mpr hconnected, (Option.some.inj heq).symm⟩

/-- With its socket the entry goes, if no other client has taken it over. -/
private theorem Kept.destroyed {s t : Server} (h : Kept s) {c : ℕ}
    (hgood : NoneTookOver s (.destroyed c)) (hstep : step s (.destroyed c) = some t) :
    Kept t := by
  obtain ⟨old, hold, -, rfl⟩ := destroyed_cases hstep
  have halive : ∀ d sock, (Assoc.erase c s.alive).lookup d = some sock →
      s.alive.lookup d = some sock := by
    intro d sock hsock
    by_cases hd : d = c
    · rw [hd, Assoc.lookup_erase_self] at hsock
      cases hsock
    · rwa [Assoc.lookup_erase_ne hd] at hsock
  constructor
  · intro d sock hsock
    exact h.below d sock (halive d sock hsock)
  · exact Assoc.distinct_erase old.addr h.distinct
  · intro addr d hentry
    by_cases haddr : addr = old.addr
    · rw [haddr, Assoc.lookup_erase_self] at hentry
      cases hentry
    · rw [Assoc.lookup_erase_ne haddr] at hentry
      obtain ⟨sock, hsock, hsockaddr⟩ := h.entries addr d hentry
      refine ⟨sock, ?_, hsockaddr⟩
      rw [Assoc.lookup_erase_ne, hsock]
      rintro rfl
      obtain rfl := Option.some.inj (hold.symm.trans hsock)
      exact haddr hsockaddr.symm
  · intro d addr hd
    have hbefore : s.Connected d addr := halive d _ hd
    rw [Assoc.lookup_erase_ne (hgood c old rfl hold d addr hbefore)]
    exact h.routed d addr hbefore

/-- Every step that takes no entry of another client keeps the map right. -/
theorem Kept.step {s t : Server} {a : Action} (h : Kept s) (hgood : NoneTookOver s a)
    (hstep : Websocket.step s a = some t) : Kept t := by
  cases a with
  | accept addr => exact h.accept hstep
  | disconnected c => exact h.disconnected hstep
  | destroyed c => exact h.destroyed hgood hstep

/-- The deletion of a socket takes away the entry of the client that came from its address. -/
theorem not_reaches_of_tookOver {s t : Server} {a : Action} (hbad : ¬ NoneTookOver s a)
    (hstep : step s a = some t) (conf : Config) : ¬ Reaches conf t := by
  intro hreaches
  apply hbad
  rintro c old rfl hold d addr hconnected rfl
  obtain ⟨old', hold', hclosed, rfl⟩ := destroyed_cases hstep
  obtain rfl := Option.some.inj (hold.symm.trans hold')
  have hd : d ≠ c := by
    rintro rfl
    rw [Option.some.inj (hold.symm.trans hconnected)] at hclosed
    cases hclosed
  have hrouted := hreaches.routed d old.addr
    (show (Assoc.erase c s.alive).lookup d = _ by rw [Assoc.lookup_erase_ne hd]; exact hconnected)
  rw [Assoc.lookup_erase_self] at hrouted
  cases hrouted

/-! ## Runs -/

/-- All connected clients stand in the map, and messages reach whom they should, at every point of a
run if and only if no socket is deleted while a client is connected that came from its address. -/
theorem reaches_iff (conf : Config) {actions : List Action} {s : Server}
    (hrun : run step start actions = some s) :
    (∀ done t, done <+: actions → run step start done = some t → Reaches conf t) ↔
      Along step NoneTookOver start actions := by
  refine forall_run_iff_along Kept.step (fun h => h.reaches conf) ?_ ?_ hrun
  · intro s a t _ hbad hstep
    exact not_reaches_of_tookOver hbad hstep conf
  · constructor
    · rintro c sock ⟨⟩
    · exact List.nodup_nil
    · rintro addr c ⟨⟩
    · rintro c addr ⟨⟩

/-- A client comes back from its address after its old socket has been deleted. -/
def backLater (addr : QString) : List Action :=
  [.accept addr, .disconnected 0, .destroyed 0, .accept addr]

/-- A client comes back from its address before that. -/
def backSooner (addr : QString) : List Action :=
  [.accept addr, .disconnected 0, .accept addr, .destroyed 0]

/-- Messages in the open, one character for each. -/
def plainConfig : Config where
  codec := ⟨⟨fun _ _ => [120], fun _ _ => .ok .invalid, id, id⟩, .json, none⟩
  per_client := true

/-- A client that comes back when its old socket is gone is reached. -/
theorem reaches_backLater : ∃ s, run step start (backLater (literal "10.0.0.1:5000")) = some s ∧
    Reaches plainConfig s := by
  obtain ⟨s, hs⟩ : ∃ s, run step start (backLater (literal "10.0.0.1:5000")) = some s :=
    ⟨_, rfl⟩
  refine ⟨s, hs, (reaches_iff plainConfig hs).mpr ?_ _ s (List.prefix_refl _) hs⟩
  refine Along.cons (by rintro c old ⟨⟩) rfl (Along.cons (by rintro c old ⟨⟩) rfl ?_)
  refine Along.cons ?_ rfl (Along.cons (by rintro c old ⟨⟩) rfl trivial)
  rintro c old ⟨⟩ - d addr hconnected
  have hmem := Assoc.mem_of_lookup hconnected
  cases List.mem_singleton.mp hmem

/-- The new client is connected, and nothing reaches it. -/
theorem nothing_reaches_backSooner :
    ∃ s, run step start (backSooner (literal "10.0.0.1:5000")) = some s ∧
      s.Connected 1 (literal "10.0.0.1:5000") ∧
      s.socks.lookup (literal "10.0.0.1:5000") = none ∧
      s.received (plainConfig.OnMsg s.socks (.leaf (.int 1))) = [] ∧ ¬ Reaches plainConfig s := by
  refine ⟨_, rfl, rfl, rfl, rfl, fun hreaches => ?_⟩
  have hrouted := hreaches.routed 1 (literal "10.0.0.1:5000") rfl
  cases hrouted

end Radapter.Websocket
