import Mathlib.Data.List.Pairwise
import Radapter.Redis.Chains

/-!
# Positions in the stream

The worker keeps its position in memory, saves it on another connection, and loads it again when
the client that reads is connected. Positions may be old, the saving of one may be lost, and two
chains of reads may change the position in turns.

None of this skips an entry, because a position is always the ID from the beginning or that of an
entry that has been emitted, and a reply goes on from there without a gap. It takes that the
commands are executed in the database of the worker: a command that is sent before the connection
is established is executed before the `SELECT`.
-/

namespace Radapter.Redis

open Library

/-! ## Streams in order -/

/-- The entries behind the first one behind an ID. -/
theorem behind_of_cons {entries : List Entry}
    (hentries : entries.Pairwise (fun e e' => e.id < e'.id)) {n : EntryId} {e : Entry}
    {more : List Entry} (h : Stream.behind entries n = e :: more) :
    Stream.behind entries e.id = more := by
  have he : e ∈ Stream.behind entries n := h ▸ List.mem_cons_self
  have hn : n < e.id := by simpa using (List.mem_filter.mp he).2
  have hsorted : (e :: more).Pairwise (fun e e' => e.id < e'.id) := h ▸ hentries.filter _
  have hagain : Stream.behind entries e.id =
      (Stream.behind entries n).filter (fun e' => e.id < e'.id) := by
    rw [Stream.behind, Stream.behind, List.filter_filter]
    apply List.filter_congr
    intro e' _
    by_cases hlt : e.id < e'.id
    · simp [hlt, Nat.lt_trans hn hlt]
    · simp [hlt]
  rw [hagain, h, List.filter_cons_of_neg (by simp), List.filter_eq_self]
  intro e' he'
  simpa using (List.pairwise_cons.mp hsorted).1 e' he'

/-- Appending entries only adds to those behind an ID. -/
theorem behind_append (entries more : List Entry) (n : EntryId) :
    Stream.behind (entries ++ more) n = Stream.behind entries n ++ Stream.behind more n := by
  rw [Stream.behind, List.filter_append]
  rfl

/-- A reply has the first of the entries. -/
theorem takeCount_prefix (count : ℕ) (entries : List Entry) :
    Stream.takeCount count entries <+: entries := by
  rw [Stream.takeCount]
  split
  · exact List.prefix_refl _
  · exact List.take_prefix _ _

/-- An ID stands for one entry. -/
theorem id_injective (store : Store) {e e' : Entry} (he : e ∈ store.stream)
    (he' : e' ∈ store.stream) (h : e.id = e'.id) : e = e' := by
  have hne : store.stream.Pairwise (fun e e' => e.id ≠ e'.id) :=
    store.ascending.imp (fun hlt => Nat.ne_of_lt hlt)
  have hsymm : Std.Symm (fun e e' : Entry => e.id ≠ e'.id) := ⟨fun _ _ hab => hab.symm⟩
  by_contra hdiff
  exact hne.forall he he' hdiff h

/-! ## Positions -/

/-- The ID that a saved text stands for; without one, the stream is read from its beginning. -/
def savedId : Option LastId → EntryId
  | some (.id n) => n
  | _ => 0

/-- The entries of the stream that the worker is configured for. -/
def Stream.entries (s : Stream) : List Entry := (s.dbs s.config.db).stream

/-- Whenever an entry was emitted, every earlier one behind the ID from the beginning had been
emitted before. -/
def NoGaps (first : EntryId) (s : Stream) : Prop :=
  ∀ before e after, s.emitted = before ++ e :: after →
    ∀ e' ∈ s.entries, first < e'.id → e'.id < e.id → e' ∈ before

/-- No `GET` and no `XREAD` is executed in another database than that of the worker. -/
def UsesDb (s : Stream) : Action → Prop
  | .execute role _ => ∀ cmd ∈ (s.conn role).session.sent.head?,
      cmd.isRead = true ∨ cmd = .GET → (s.conn role).session.db = s.config.db
  | _ => True

instance (s : Stream) : (a : Action) → Decidable (UsesDb s a)
  | .execute _ _ => inferInstanceAs (Decidable (∀ cmd ∈ _, _ ∨ _ → _ = _))
  | .doConnect _ _ => isTrue trivial
  | .connected _ => isTrue trivial
  | .connectFailed _ => isTrue trivial
  | .disconnected _ => isTrue trivial
  | .executeOrphan _ => isTrue trivial
  | .timeout _ => isTrue trivial
  | .append _ _ => isTrue trivial
  | .receive _ => isTrue trivial

/-- The position is not behind what has been emitted. -/
def Stream.Seen (first : EntryId) (s : Stream) (n : EntryId) : Prop :=
  n ≤ first ∨ ∃ e ∈ s.emitted, e.id = n

/-- A text that is no position, or a good one. -/
def LastId.Good (P : EntryId → Prop) : LastId → Prop
  | .empty => True
  | .dollar => False
  | .id n => P n

/-- The position in a command is good. -/
def Command.Good (P : EntryId → Prop) : Command → Prop
  | .XREAD lastId => lastId.Good P
  | .SET lastId => lastId.Good P
  | _ => True

/-- A saved position is good, and entries follow a good one without a gap. -/
def Reply.Good (P : EntryId → Prop) (entries : List Entry) : Reply → Prop
  | .entries batch => ∃ n rest, P n ∧ Stream.behind entries n = batch ++ rest
  | .value lastId => lastId.Good P
  | _ => True

/-- What is under way on a connection is good. -/
structure Session.Good (P : EntryId → Prop) (db : ℕ) (entries : List Entry)
    (session : Session) : Prop where
  sent : ∀ cmd ∈ session.sent, cmd.Good P
  replies : ∀ reply ∈ session.replies, reply.2.Good P entries
  blocked : ∀ n ∈ session.blocked, P n ∧ session.db = db

/-- All positions in the system are good, and there is no gap so far. -/
structure Tracked (first : EntryId) (s : Stream) : Prop where
  persistent : s.config.start_from = .persistent_id
  noGaps : NoGaps first s
  emitted_mem : ∀ e ∈ s.emitted, e ∈ s.entries
  lastId : s.lastId.Good (s.Seen first)
  conns : ∀ role, (s.conn role).session.Good (s.Seen first) s.config.db s.entries
  saved : ∀ lastId ∈ (s.dbs s.config.db).saved, lastId.Good (s.Seen first)
  orphans : ∀ session ∈ s.orphans, ∀ cmd ∈ session.sent, cmd.Good (s.Seen first)

/-- A text stays good when more positions count as seen. -/
theorem LastId.Good.mono {P Q : EntryId → Prop} (hPQ : ∀ n, P n → Q n) {lastId : LastId}
    (h : lastId.Good P) : lastId.Good Q := by
  cases lastId with
  | empty => trivial
  | dollar => exact h
  | id n => exact hPQ n h

/-- So does the position in a command. -/
theorem Command.Good.mono {P Q : EntryId → Prop} (hPQ : ∀ n, P n → Q n) {cmd : Command}
    (h : cmd.Good P) : cmd.Good Q := by
  cases cmd with
  | XREAD lastId => exact LastId.Good.mono hPQ h
  | SET lastId => exact LastId.Good.mono hPQ h
  | SELECT => trivial
  | GET => trivial

/-- So does a reply, also when entries are appended. -/
theorem Reply.Good.mono {P Q : EntryId → Prop} (hPQ : ∀ n, P n → Q n) {entries more : List Entry}
    {reply : Reply} (h : reply.Good P entries) : reply.Good Q (entries ++ more) := by
  cases reply with
  | entries batch =>
    obtain ⟨n, rest, hn, hbatch⟩ := h
    refine ⟨n, rest ++ Stream.behind more n, hPQ n hn, ?_⟩
    rw [behind_append, hbatch, List.append_assoc]
  | value lastId => exact LastId.Good.mono hPQ h
  | OK => trivial
  | nil => trivial
  | error => trivial

/-- So does all that is under way on a connection. -/
theorem Session.Good.mono {P Q : EntryId → Prop} (hPQ : ∀ n, P n → Q n) {db : ℕ}
    {entries more : List Entry} {session : Session} (h : session.Good P db entries) :
    session.Good Q db (entries ++ more) where
  sent := fun cmd hcmd => (h.sent cmd hcmd).mono hPQ
  replies := fun reply hreply => (h.replies reply hreply).mono hPQ
  blocked := fun n hn => ⟨hPQ n (h.blocked n hn).1, (h.blocked n hn).2⟩

/-- Nothing is under way on a new connection. -/
theorem Session.good_new (P : EntryId → Prop) (db : ℕ) (entries : List Entry) :
    Session.new.Good P db entries where
  sent := by simp [Session.new]
  replies := by simp [Session.new]
  blocked := by simp [Session.new]

/-- One more good command. -/
theorem Session.Good.send {P : EntryId → Prop} {db : ℕ} {entries : List Entry}
    {session : Session} (h : session.Good P db entries) {cmd : Command} (hcmd : cmd.Good P) :
    (session.send cmd).Good P db entries := by
  refine ⟨?_, h.replies, h.blocked⟩
  intro other hother
  rcases List.mem_append.mp hother with hother | hother
  · exact h.sent other hother
  · rw [List.mem_singleton.mp hother]
    exact hcmd

section Callbacks

variable {first : EntryId} {s : Stream}

/-- Everything up to a position has been emitted. -/
theorem Tracked.mem_emitted (hs : Tracked first s) {n : EntryId} (hn : s.Seen first n) {e : Entry}
    (he : e ∈ s.entries) (hfirst : first < e.id) (hle : e.id ≤ n) : e ∈ s.emitted := by
  rcases hn with hn | ⟨e', he', rfl⟩
  · exact absurd (Nat.le_trans hle hn) (Nat.not_le_of_lt hfirst)
  · rcases Nat.lt_or_eq_of_le hle with hlt | heq
    · obtain ⟨before, after, hsplit⟩ := List.append_of_mem he'
      rw [hsplit]
      exact List.mem_append_left _ (hs.noGaps before e' after hsplit e he hfirst hlt)
    · have hsame : e = e' := id_injective (s.dbs s.config.db) he (hs.emitted_mem e' he') heq
      rw [hsame]
      exact he'

/-- The sessions of the clients are good where the clients are those of a state that is tracked. -/
theorem Tracked.conns_congr (hs : Tracked first s) {t : Stream} (hclient : t.client = s.client)
    (hread : t.read_client = s.read_client) (role : Role) :
    (t.conn role).session.Good (s.Seen first) s.config.db s.entries := by
  cases role with
  | client =>
    rw [Stream.conn_client, hclient]
    exact hs.conns .client
  | read_client =>
    rw [Stream.conn_read_client, hread]
    exact hs.conns .read_client

/-- What is tracked does not depend on the flags of the clients, nor on the first read. -/
theorem Tracked.congr (hs : Tracked first s) {t : Stream} (hconfig : t.config = s.config)
    (hdbs : t.dbs = s.dbs) (hemitted : t.emitted = s.emitted)
    (hlastId : t.lastId.Good (s.Seen first))
    (hconns : ∀ role, (t.conn role).session.Good (s.Seen first) s.config.db s.entries)
    (horphans : ∀ session ∈ t.orphans, ∀ cmd ∈ session.sent, cmd.Good (s.Seen first)) :
    Tracked first t := by
  have hentries : t.entries = s.entries := by rw [Stream.entries, hconfig, hdbs, Stream.entries]
  have hseen : t.Seen first = s.Seen first := by
    funext n
    rw [Stream.Seen, hemitted, Stream.Seen]
  refine ⟨?_, ?_, ?_, ?_, ?_, ?_, ?_⟩
  · rw [hconfig]
    exact hs.persistent
  · unfold NoGaps
    rw [hemitted, hentries]
    exact hs.noGaps
  · rw [hemitted, hentries]
    exact hs.emitted_mem
  · rw [hseen]
    exact hlastId
  · rw [hseen, hconfig, hentries]
    exact hconns
  · rw [hseen, hconfig, hdbs]
    exact hs.saved
  · rw [hseen]
    exact horphans

/-- A client whose session is good. -/
theorem Tracked.setConn (hs : Tracked first s) (role : Role) {c : Client}
    (hc : c.session.Good (s.Seen first) s.config.db s.entries) :
    Tracked first (s.setConn role c) := by
  cases role with
  | client =>
    refine hs.congr (t := s.setConn .client c) rfl rfl rfl hs.lastId ?_ hs.orphans
    intro role
    cases role with
    | client => exact hc
    | read_client => exact hs.conns .read_client
  | read_client =>
    refine hs.congr (t := s.setConn .read_client c) rfl rfl rfl hs.lastId ?_ hs.orphans
    intro role
    cases role with
    | client => exact hs.conns .client
    | read_client => exact hc

/-- The worker may remember any good position. -/
theorem Tracked.setLastId (hs : Tracked first s) {lastId : LastId}
    (h : lastId.Good (s.Seen first)) : Tracked first { s with lastId } := by
  exact hs.congr (t := { s with lastId }) rfl rfl rfl h (hs.conns_congr rfl rfl) hs.orphans

/-- A command with a good position may be sent. -/
theorem Tracked.execute_good (hs : Tracked first s) (role : Role) {cmd : Command}
    (hcmd : cmd.Good (s.Seen first)) : Tracked first (s.Execute role cmd) :=
  hs.setConn role ((hs.conns role).send hcmd)

/-- A read goes on from the remembered position, which is good. -/
theorem Tracked.nextRead (hs : Tracked first s) : Tracked first s.nextRead := by
  rw [Stream.nextRead]
  split
  · exact hs.execute_good .read_client hs.lastId
  · exact hs

/-- That position is saved. -/
theorem Tracked.saveLastId (hs : Tracked first s) : Tracked first s.saveLastId := by
  rw [Stream.saveLastId]
  split
  · exact hs.execute_good .client hs.lastId
  · exact hs

/-- The position that was saved is taken, or the beginning of the stream. -/
theorem Tracked.gotLastId (hs : Tracked first s) {res : Reply}
    (hres : res.Good (s.Seen first) s.entries) : Tracked first (s.gotLastId res) := by
  have hstart : LastId.Good (s.Seen first) (.id 0) := Or.inl (Nat.zero_le first)
  have hnext (lastId : LastId) (h : lastId.Good (s.Seen first)) : Tracked first
      (Stream.nextRead { s with lastId := if lastId = .empty then .id 0 else lastId }) := by
    apply Tracked.nextRead
    apply hs.setLastId
    split
    · exact hstart
    · exact h
  cases res with
  | error => exact hnext s.lastId hs.lastId
  | value lastId => exact hnext lastId hres
  | OK => exact hnext .empty trivial
  | nil => exact hnext .empty trivial
  | entries batch => exact hnext .empty trivial

/-- A new connection reads on, or asks for the saved position. -/
theorem Tracked.onConnected (hs : Tracked first s) : Tracked first s.onConnected := by
  rw [Stream.onConnected, hs.persistent]
  simp only [Stream.loadIdAndRead]
  split
  · exact hs.execute_good .client trivial
  · exact hs.gotLastId trivial

/-- The next entry behind a good position is emitted. -/
theorem Tracked.receiveEntry (hs : Tracked first s) {n : EntryId} (hn : s.Seen first n) {e : Entry}
    {more : List Entry} (hbehind : Stream.behind s.entries n = e :: more) :
    Tracked first (s.receiveEntry e) := by
  have he : e ∈ Stream.behind s.entries n := hbehind ▸ List.mem_cons_self
  obtain ⟨hmem, -⟩ := List.mem_filter.mp he
  have hseen (m : EntryId) (hm : s.Seen first m) : (s.receiveEntry e).Seen first m := by
    rcases hm with hm | ⟨e', he', rfl⟩
    · exact Or.inl hm
    · exact Or.inr ⟨e', List.mem_append_left _ he', rfl⟩
  -- Every entry in front of this one is at or in front of the position.
  have hbefore : ∀ e' ∈ s.entries, first < e'.id → e'.id < e.id → e' ∈ s.emitted := by
    intro e' he' hfirst hlt
    apply hs.mem_emitted hn he' hfirst
    by_contra hbeyond
    have hmem' : e' ∈ e :: more := by
      rw [← hbehind]
      exact List.mem_filter.mpr ⟨he', by simpa using hbeyond⟩
    have hsorted : (e :: more).Pairwise (fun e e' => e.id < e'.id) :=
      hbehind ▸ (s.dbs s.config.db).ascending.filter _
    rcases List.mem_cons.mp hmem' with rfl | hlater
    · exact Nat.lt_irrefl _ hlt
    · exact Nat.lt_asymm hlt ((List.pairwise_cons.mp hsorted).1 e' hlater)
  have hconn (role : Role) : ((s.receiveEntry e).conn role).session = (s.conn role).session := by
    cases role with
    | client => rfl
    | read_client => rfl
  refine ⟨hs.persistent, ?_, ?_, ?_, ?_, ?_, ?_⟩
  · intro before e₀ after hsplit e' he' hfirst hlt
    rcases List.append_eq_append_iff.mp hsplit with ⟨more, hbefore', hafter⟩ | ⟨more, hs', hafter⟩
    · cases more with
      | nil =>
        obtain ⟨rfl, -⟩ := List.cons_eq_cons.mp hafter
        rw [hbefore', List.append_nil]
        exact hbefore e' he' hfirst hlt
      | cons x more => simp at hafter
    · cases more with
      | nil =>
        obtain ⟨rfl, -⟩ := List.cons_eq_cons.mp hafter.symm
        rw [List.append_nil] at hs'
        rw [← hs']
        exact hbefore e' he' hfirst hlt
      | cons x more =>
        obtain ⟨rfl, -⟩ := List.cons_eq_cons.mp hafter
        exact hs.noGaps before e₀ more hs' e' he' hfirst hlt
  · intro e' he'
    rcases List.mem_append.mp he' with he' | he'
    · exact hs.emitted_mem e' he'
    · rw [List.mem_singleton.mp he']
      exact hmem
  · exact Or.inr ⟨e, List.mem_append_right _ (List.mem_singleton_self e), rfl⟩
  · intro role
    have hgood := @Session.Good.mono _ _ hseen _ _ [] _ (hs.conns role)
    rw [List.append_nil] at hgood
    rw [hconn]
    exact hgood
  · exact fun lastId hlastId => LastId.Good.mono hseen (hs.saved lastId hlastId)
  · exact fun session hsession cmd hcmd => (hs.orphans session hsession cmd hcmd).mono hseen

/-- A reply is emitted entry by entry. -/
theorem Tracked.receiveEntries (hs : Tracked first s) {n : EntryId} (hn : s.Seen first n)
    {batch rest : List Entry} (hbehind : Stream.behind s.entries n = batch ++ rest) :
    Tracked first (batch.foldl Stream.receiveEntry s) := by
  induction batch generalizing s n with
  | nil => exact hs
  | cons e batch ih =>
    apply ih (hs.receiveEntry hn hbehind)
      (Or.inr ⟨e, List.mem_append_right _ (List.mem_singleton_self e), rfl⟩)
    exact behind_of_cons (s.dbs s.config.db).ascending hbehind

/-- Every callback of the worker keeps the positions good. -/
theorem Tracked.callback (hs : Tracked first s) (role : Role) (cmd : Command) {reply : Reply}
    (hreply : reply.Good (s.Seen first) s.entries) :
    Tracked first (s.callback role cmd reply) := by
  have hclient (c : Client) (hc : c.session = (s.conn role).session) :
      Tracked first (s.setConn role c) := hs.setConn role (hc ▸ hs.conns role)
  cases cmd with
  | SET lastId => exact hs
  | GET => exact hs.gotLastId hreply
  | SELECT =>
    simp only [Stream.callback, Stream.gotDb, Stream.reconnectLater]
    cases reply with
    | OK =>
      cases role with
      | client => exact hclient _ rfl
      | read_client => exact (hclient { s.read_client with ok := true } rfl).onConnected
    | nil => exact hclient _ rfl
    | entries batch => exact hclient _ rfl
    | value lastId => exact hclient _ rfl
    | error => exact hclient _ rfl
  | XREAD lastId =>
    cases reply with
    | error => exact hs
    | entries batch =>
      obtain ⟨n, rest, hn, hbatch⟩ := hreply
      exact (hs.receiveEntries hn hbatch).saveLastId.nextRead
    | OK => exact hs.nextRead
    | nil => exact hs.nextRead
    | value lastId => exact hs.nextRead

end Callbacks

/-! ## Connections -/

section Connections

variable {first : EntryId} {s : Stream}

/-- A callback with an error emits nothing. -/
theorem emitted_callback_error (s : Stream) (role : Role) (cmd : Command) :
    (s.callback role cmd .error).emitted = s.emitted := by
  have hset (c : Client) : (s.setConn role c).emitted = s.emitted := by
    cases role with
    | client => rfl
    | read_client => rfl
  cases cmd with
  | SELECT => exact hset _
  | XREAD lastId => rfl
  | SET lastId => rfl
  | GET =>
    simp only [Stream.callback, Stream.gotLastId, Stream.nextRead]
    split
    · rfl
    · rfl

/-- Null replies keep the positions good. -/
theorem Tracked.null_replies (hs : Tracked first s) (role : Role) (cmds : List Command) :
    Tracked first (cmds.foldl (fun s cmd => s.callback role cmd .error) s) ∧
      (cmds.foldl (fun s cmd => s.callback role cmd .error) s).emitted = s.emitted := by
  induction cmds generalizing s with
  | nil => exact ⟨hs, rfl⟩
  | cons cmd cmds ih =>
    have herror : Reply.Good (s.Seen first) s.entries .error := trivial
    obtain ⟨htracked, hemitted⟩ := ih (hs.callback role cmd herror)
    exact ⟨htracked, hemitted.trans (emitted_callback_error s role cmd)⟩

/-- The commands of a freed context get null replies, which bring no entries. -/
theorem Tracked.free (hs : Tracked first s) (role : Role) : Tracked first (s.free role) := by
  obtain ⟨htracked, hemitted⟩ := hs.null_replies role (s.conn role).session.pending
  have hseen : Stream.Seen first ((s.conn role).session.pending.foldl
      (fun s cmd => s.callback role cmd .error) s) = s.Seen first := by
    funext n
    rw [Stream.Seen, hemitted, Stream.Seen]
  refine htracked.congr (t := s.free role) rfl rfl rfl htracked.lastId ?_ ?_
  · intro other
    cases other with
    | client => exact htracked.conns .client
    | read_client => exact htracked.conns .read_client
  · intro session hsession cmd hcmd
    simp only [Stream.free] at hsession
    split at hsession
    · rcases List.mem_append.mp hsession with hold | hnew
      · exact htracked.orphans session hold cmd hcmd
      · rw [List.mem_singleton.mp hnew] at hcmd
        rw [hseen]
        exact (hs.conns role).sent cmd hcmd
    · exact htracked.orphans session hsession cmd hcmd

/-- So do those of the connection before. -/
theorem Tracked.doConnect (hs : Tracked first s) (role : Role) (failed : Bool) :
    Tracked first (s.doConnect role failed) := by
  simp only [Stream.doConnect]
  split
  · exact (hs.free role).setConn role (Session.good_new _ _ _)
  · exact hs.setConn role (Session.good_new _ _ _)

/-- A connection that is established selects its database first. -/
theorem Tracked.connected (hs : Tracked first s) (role : Role) :
    Tracked first (s.connected role) :=
  (hs.setConn role (c := { s.conn role with connected := true }) (hs.conns role)).execute_good role
    trivial

/-- One that fails is freed. -/
theorem Tracked.connectFailed (hs : Tracked first s) (role : Role) :
    Tracked first (s.connectFailed role) := by
  have hgiven := hs.setConn role
    (c := { s.conn role with ctx := false, reconPending := true }) (hs.conns role)
  exact (hgiven.free role).setConn role (Session.good_new _ _ _)

/-- So is one that goes down. -/
theorem Tracked.disconnected (hs : Tracked first s) (role : Role) :
    Tracked first (s.disconnected role) :=
  (hs.free role).setConn role (Session.good_new _ _ _)

end Connections

/-! ## The server -/

section Server

variable {first : EntryId} {s : Stream}

/-- A database is written. In that of the worker, entries are only added behind the others, and a
saved position is good. -/
theorem Tracked.setStore (hs : Tracked first s) {db : ℕ} {store : Store}
    (hstream : db = s.config.db → ∃ more, store.stream = s.entries ++ more)
    (hsaved : db = s.config.db → ∀ lastId ∈ store.saved, lastId.Good (s.Seen first)) :
    Tracked first (s.setStore db store) := by
  by_cases hown : db = s.config.db
  · obtain ⟨more, hmore⟩ := hstream hown
    have hdb : (s.setStore db store).dbs (s.setStore db store).config.db = store :=
      if_pos hown.symm
    have hentries : (s.setStore db store).entries = s.entries ++ more := by
      rw [Stream.entries, hdb, hmore]
    have hnew : ∀ e ∈ s.entries, ∀ e' ∈ more, e.id < e'.id :=
      (List.pairwise_append.mp (hmore ▸ store.ascending)).2.2
    refine ⟨hs.persistent, ?_, ?_, hs.lastId, ?_, ?_, hs.orphans⟩
    · intro before e after hsplit e' he' hfirst hlt
      have hsplit' : s.emitted = before ++ e :: after := hsplit
      have he := hs.emitted_mem e (by simp [hsplit'])
      rw [hentries] at he'
      rcases List.mem_append.mp he' with he' | he'
      · exact hs.noGaps before e after hsplit e' he' hfirst hlt
      · exact absurd (hnew e he e' he') (Nat.lt_asymm hlt)
    · intro e he
      rw [hentries]
      exact List.mem_append_left _ (hs.emitted_mem e he)
    · intro role
      rw [hentries]
      have hgood := @Session.Good.mono _ _ (fun n hn => hn) _ _ more _ (hs.conns role)
      cases role with
      | client => exact hgood
      | read_client => exact hgood
    · rw [hdb]
      exact hsaved hown
  · have hdb : (s.setStore db store).dbs (s.setStore db store).config.db = s.dbs s.config.db :=
      if_neg (Ne.symm hown)
    have hentries : (s.setStore db store).entries = s.entries := by
      rw [Stream.entries, hdb, Stream.entries]
    refine ⟨hs.persistent, ?_, ?_, hs.lastId, ?_, ?_, hs.orphans⟩
    · unfold NoGaps
      rw [hentries]
      exact hs.noGaps
    · rw [hentries]
      exact hs.emitted_mem
    · rw [hentries]
      exact hs.conns_congr rfl rfl
    · rw [hdb]
      exact hs.saved

/-- A good position is saved, in whatever database. -/
theorem Tracked.setSaved (hs : Tracked first s) (db : ℕ) {lastId : LastId}
    (h : lastId.Good (s.Seen first)) :
    Tracked first (s.setStore db { s.dbs db with saved := some lastId }) := by
  apply hs.setStore
  · rintro rfl
    exact ⟨[], (List.append_nil _).symm⟩
  · intro _ other hother
    rw [← Option.mem_some_iff.mp hother]
    exact h

/-- Saving a position leaves the streams alone. -/
theorem entries_setSaved (s : Stream) (db : ℕ) (saved : Option LastId) :
    Stream.entries (s.setStore db { s.dbs db with saved }) = s.entries := by
  simp only [Stream.entries, Stream.setStore]
  split
  · next heq => rw [heq]
  · rfl

/-- A first read that is noted changes nothing that is tracked. -/
theorem Tracked.noteRead (hs : Tracked first s) (db : ℕ) : Tracked first (s.noteRead db) := by
  exact hs.congr (t := s.noteRead db) rfl rfl rfl hs.lastId (hs.conns_congr rfl rfl) hs.orphans

/-- The server executes a command in the database of the worker. -/
theorem Tracked.executeHead (hs : Tracked first s) {session : Session}
    (hsession : session.Good (s.Seen first) s.config.db s.entries) {cmd : Command}
    {rest : List Command} (hsent : session.sent = cmd :: rest) (hblocked : session.blocked = none)
    (hdb : cmd.isRead = true ∨ cmd = .GET → session.db = s.config.db)
    (fails : Bool) :
    Tracked first (s.executeHead session cmd rest fails).2 ∧
      (s.executeHead session cmd rest fails).1.Good
        ((s.executeHead session cmd rest fails).2.Seen first)
        (s.executeHead session cmd rest fails).2.config.db
        (s.executeHead session cmd rest fails).2.entries := by
  have hcmd : cmd.Good (s.Seen first) := hsession.sent cmd (by simp [hsent])
  have hrest : ∀ cmd ∈ rest, cmd.Good (s.Seen first) :=
    fun other hother => hsession.sent other (by simp [hsent, hother])
  have hanswer (db : ℕ) {reply : Reply} (hreply : reply.Good (s.Seen first) s.entries) :
      Session.Good (s.Seen first) s.config.db s.entries
        { session with db, sent := rest, replies := session.replies ++ [(cmd, reply)] } := by
    refine ⟨hrest, ?_, by simp [hblocked]⟩
    intro other hother
    rcases List.mem_append.mp hother with hother | hother
    · exact hsession.replies other hother
    · rw [List.mem_singleton.mp hother]
      exact hreply
  unfold Stream.executeHead
  split
  · exact ⟨hs, hanswer session.db trivial⟩
  · cases cmd with
    | SELECT => exact ⟨hs, hanswer s.config.db trivial⟩
    | GET =>
      refine ⟨hs, hanswer session.db ?_⟩
      split
      · trivial
      · next lastId hsaved =>
        rw [hdb (Or.inr rfl)] at hsaved
        exact hs.saved lastId hsaved
    | SET lastId =>
      have hsaved := hs.setSaved session.db hcmd
      refine ⟨hsaved, ?_⟩
      have hgood := @hanswer session.db .OK trivial
      rw [← entries_setSaved s session.db (some lastId)] at hgood
      exact hgood
    | XREAD lastId =>
      have hown : session.db = s.config.db := hdb (Or.inl rfl)
      cases lastId with
      | empty => exact ⟨hs, hanswer session.db trivial⟩
      | dollar => exact False.elim hcmd
      | id n =>
        dsimp only
        split
        · refine ⟨hs.noteRead _, hsession.sent, hsession.replies, ?_⟩
          intro m hm
          rw [Option.mem_some_iff] at hm
          rw [← hm]
          exact ⟨hcmd, hown⟩
        · next e batch hbatch =>
          refine ⟨hs.noteRead _, hanswer session.db ?_⟩
          obtain ⟨more, hmore⟩ := takeCount_prefix s.config.entries_per_read
            (Stream.behind (s.dbs session.db).stream n)
          rw [hown] at hmore hbatch
          exact ⟨n, more, hcmd, by rw [← hbatch]; exact hmore.symm⟩

/-- The next command of a client is executed. -/
theorem Tracked.execute (hs : Tracked first s) {role : Role} {fails : Bool} {t : Stream}
    (huses : UsesDb s (.execute role fails)) (h : s.execute role fails = some t) :
    Tracked first t := by
  unfold Stream.execute at h
  dsimp only at h
  split at h
  · next cmd rest hsent hblocked =>
    split at h
    · obtain rfl := Option.some.inj h
      obtain ⟨htracked, hgood⟩ := hs.executeHead (hs.conns role) hsent hblocked
        (huses cmd (by simp [hsent])) fails
      exact htracked.setConn role hgood
    · simp at h
  · simp at h

/-- A command of a connection that went down can only save an old position. -/
theorem Tracked.executeOrphan (hs : Tracked first s) {i : ℕ} {t : Stream}
    (h : s.executeOrphan i = some t) : Tracked first t := by
  have hset {s : Stream} (hs : Tracked first s) {session : Session}
      (hsession : ∀ cmd ∈ session.sent, cmd.Good (s.Seen first)) :
      Tracked first { s with orphans := s.orphans.set i session } := by
    refine hs.congr (t := { s with orphans := s.orphans.set i session }) rfl rfl rfl hs.lastId ?_ ?_
    · intro role
      cases role with
      | client => exact hs.conns .client
      | read_client => exact hs.conns .read_client
    · intro other hother
      rcases List.mem_or_eq_of_mem_set hother with hold | rfl
      · exact hs.orphans other hold
      · exact hsession
  unfold Stream.executeOrphan at h
  split at h
  · simp at h
  · next session hi =>
    have hold := hs.orphans session (List.mem_of_getElem? hi)
    split at h
    · simp at h
    · next lastId rest hsent =>
      obtain rfl := Option.some.inj h
      exact hset hs (fun cmd hcmd => hold cmd (by simp [hsent, hcmd]))
    · next cmd rest hread hsent =>
      obtain rfl := Option.some.inj h
      have hrest : ∀ cmd ∈ rest, cmd.Good (s.Seen first) :=
        fun cmd hcmd => hold cmd (by simp [hsent, hcmd])
      cases cmd with
      | XREAD lastId => exact absurd rfl (hread lastId)
      | SELECT => exact hset hs hrest
      | GET => exact hset hs hrest
      | SET lastId =>
        have hlastId : LastId.Good (s.Seen first) lastId := hold (.SET lastId) (by simp [hsent])
        exact hset (hs.setSaved session.db hlastId) hrest

/-- A waiting command gets a good reply. -/
theorem Session.Good.unblock {P : EntryId → Prop} {db : ℕ} {entries : List Entry}
    {session : Session} (h : session.Good P db entries) {reply : Reply}
    (hreply : reply.Good P entries) : (Stream.unblock session reply).Good P db entries := by
  unfold Stream.unblock
  split
  · exact h
  · next cmd rest hsent =>
    refine ⟨fun other hother => h.sent other (by simp [hsent, hother]), ?_, by simp⟩
    intro other hother
    rcases List.mem_append.mp hother with hother | hother
    · exact h.replies other hother
    · rw [List.mem_singleton.mp hother]
      exact hreply

/-- A timeout brings no entries. -/
theorem Tracked.timeout (hs : Tracked first s) {role : Role} {t : Stream}
    (h : s.timeout role = some t) : Tracked first t := by
  unfold Stream.timeout at h
  dsimp only at h
  split at h
  · simp at h
  · obtain rfl := Option.some.inj h
    exact hs.setConn role ((hs.conns role).unblock trivial)

/-- A waiting client gets the entries behind its position. -/
theorem Tracked.serve (hs : Tracked first s) (db : ℕ) (role : Role) :
    Tracked first (s.serve db role) := by
  unfold Stream.serve
  dsimp only
  split
  · exact hs
  · next n hblocked =>
    split
    · next hdb =>
      obtain ⟨hn, hown⟩ := (hs.conns role).blocked n hblocked
      obtain ⟨more, hmore⟩ := takeCount_prefix s.config.entries_per_read
        (Stream.behind (s.dbs db).stream n)
      apply hs.setConn role
      apply (hs.conns role).unblock
      rw [← hdb, hown] at hmore ⊢
      exact ⟨n, more, hn, hmore.symm⟩
    · exact hs

/-- Entries that are appended come behind everything that has been emitted. -/
theorem Tracked.append (hs : Tracked first s) {db : ℕ} {batch : List Entry} {t : Stream}
    (h : s.append db batch = some t) : Tracked first t := by
  unfold Stream.append at h
  dsimp only at h
  split at h
  · obtain rfl := Option.some.inj h
    apply Tracked.serve
    apply Tracked.serve
    apply hs.setStore
    · rintro rfl
      exact ⟨batch, rfl⟩
    · rintro rfl
      exact hs.saved
  · simp at h

/-- A reply arrives. -/
theorem Tracked.receive (hs : Tracked first s) {role : Role} {t : Stream}
    (h : s.receive role = some t) : Tracked first t := by
  unfold Stream.receive at h
  dsimp only at h
  split at h
  · simp at h
  · next cmd reply rest hreplies =>
    obtain rfl := Option.some.inj h
    have hgood := hs.conns role
    have hreply : reply.Good (s.Seen first) s.entries :=
      hgood.replies (cmd, reply) (by simp [hreplies])
    have hrest : Session.Good (s.Seen first) s.config.db s.entries
        { (s.conn role).session with replies := rest } :=
      ⟨hgood.sent, fun other hother => hgood.replies other (by simp [hreplies, hother]),
        hgood.blocked⟩
    have hpopped := hs.setConn role (c := { s.conn role with
      session := { (s.conn role).session with replies := rest } }) hrest
    apply hpopped.callback role cmd
    cases role with
    | client => exact hreply
    | read_client => exact hreply

end Server

/-! ## Runs -/

/-- Every step under the condition keeps the positions good. -/
theorem Tracked.step {first : EntryId} {s t : Stream} (hs : Tracked first s) {a : Action}
    (huses : UsesDb s a) (h : step s a = some t) : Tracked first t := by
  cases a with
  | doConnect role failed =>
    obtain ⟨-, rfl⟩ := of_guarded h
    exact hs.doConnect role failed
  | connected role =>
    obtain ⟨-, rfl⟩ := of_guarded h
    exact hs.connected role
  | connectFailed role =>
    obtain ⟨-, rfl⟩ := of_guarded h
    exact hs.connectFailed role
  | disconnected role =>
    obtain ⟨-, rfl⟩ := of_guarded h
    exact hs.disconnected role
  | execute role fails => exact hs.execute huses h
  | executeOrphan i => exact hs.executeOrphan h
  | timeout role => exact hs.timeout h
  | append db batch => exact hs.append h
  | receive role => exact hs.receive h

/-- A new worker on a server whose saved ID, if there is one, is an ID. -/
theorem tracked_new {config : StreamConfig} (hconfig : config.start_from = .persistent_id)
    {dbs : ℕ → Store} (hsaved : (dbs config.db).saved ≠ some .dollar) :
    Tracked (savedId (dbs config.db).saved) (.new config dbs) := by
  refine ⟨hconfig, ?_, ?_, trivial, ?_, ?_, ?_⟩
  · intro before e after hsplit
    simp [Stream.new] at hsplit
  · simp [Stream.new]
  · intro role
    cases role with
    | client => exact Session.good_new _ _ _
    | read_client => exact Session.good_new _ _ _
  · intro lastId hlastId
    rw [Stream.new, Option.mem_def] at hlastId
    rw [hlastId] at hsaved ⊢
    cases lastId with
    | empty => trivial
    | dollar => exact absurd rfl hsaved
    | id n => exact Or.inl (Nat.le_refl n)
  · simp [Stream.new]

/-- In every run whose steps meet the condition, the entries emitted so far have no gaps in every
state reached. -/
theorem noGaps_of_along {config : StreamConfig} (hconfig : config.start_from = .persistent_id)
    {dbs : ℕ → Store} (hsaved : (dbs config.db).saved ≠ some .dollar) {actions : List Action}
    (huses : Along step UsesDb (.new config dbs) actions) {done : List Action}
    (hdone : done <+: actions) {s : Stream} (hrun : run step (.new config dbs) done = some s) :
    NoGaps (savedId (dbs config.db).saved) s :=
  (run_invariant (fun hs huses hstep => hs.step huses hstep) (tracked_new hconfig hsaved) huses
    hdone hrun).noGaps

/-- An entry that is appended while the worker waits for it. -/
theorem noGaps_append : ∃ s, run step (.new ⟨0, .persistent_id, 1000⟩ emptyDbs)
    (startUp ++ [.execute .read_client false, .append 0 [⟨1, []⟩], .receive .read_client]) =
      some s ∧ NoGaps 0 s := by
  obtain ⟨s, hrun⟩ : ∃ s, run step (.new ⟨0, .persistent_id, 1000⟩ emptyDbs)
      (startUp ++ [.execute .read_client false, .append 0 [⟨1, []⟩], .receive .read_client]) =
        some s := ⟨_, rfl⟩
  refine ⟨s, hrun, ?_⟩
  have hsaved : (emptyDbs 0).saved ≠ some .dollar := by
    rw [emptyDbs]
    simp
  exact @noGaps_of_along ⟨0, .persistent_id, 1000⟩ rfl emptyDbs hsaved _ (by decide) _
    (List.prefix_refl _) s hrun

/-- Two databases with a stream of the same name. -/
def twoDbs : ℕ → Store
  | 0 => ⟨[⟨100, []⟩], by simp, none⟩
  | _ + 1 => ⟨[⟨1, []⟩], by simp, none⟩

/-- A late reply to the `GET` starts a read on a connection that is not established. It is executed
before the `SELECT`, in database 0, and the position of an entry there becomes that of the
worker. -/
def readBeforeSelect : List Action :=
  [.connected .client, .connected .read_client, .execute .client false, .receive .client,
    .execute .read_client false, .receive .read_client, .execute .client false,
    .disconnected .read_client, .doConnect .read_client false, .receive .client,
    .connected .read_client, .execute .read_client false, .receive .read_client,
    .execute .read_client false, .append 1 [⟨101, []⟩], .execute .read_client false,
    .receive .read_client, .receive .read_client]

/-- The entry 101 is emitted, and the entry 1 is not. -/
theorem not_noGaps_other_db : ¬ ∀ s,
    run step (.new ⟨1, .persistent_id, 1000⟩ twoDbs) readBeforeSelect = some s → NoGaps 0 s := by
  intro h
  have hgap := h _ rfl [⟨100, []⟩] ⟨101, []⟩ [] rfl ⟨1, []⟩ (by decide) (by decide) (by decide)
  exact absurd hgap (by decide)

end Radapter.Redis
