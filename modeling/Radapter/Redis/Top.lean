import Radapter.Redis.Positions

/-!
# Reading from the top

A worker that starts at the top of the stream asks for the entries behind `$` until it has got one.
For the server, `$` is the last ID at the time when the command is executed, so what is appended
between a timeout and the execution of the next `XREAD` is behind nobody's ID.

The file shows that nothing else is lost: as long as no entry is appended in such a gap, the
entries that are appended after the first `XREAD` are emitted once each, and in order.
-/

namespace Radapter.Redis

open Library

/-! ## What is due -/

/-- The entries that were appended after the first `XREAD` was executed. -/
def dueOf (entries : List Entry) : Option EntryId → List Entry
  | none => []
  | some top => Stream.behind entries top

/-- The entries that the worker has to emit. -/
def Stream.due (s : Stream) : List Entry := dueOf s.entries s.firstRead

/-- The event of a worker whose reading connection stays up, and whose reads are not answered with
an error. -/
def StaysUp : Action → Prop
  | .doConnect .read_client _ => False
  | .connectFailed .read_client => False
  | .disconnected .read_client => False
  | .execute .read_client fails => fails = false
  | _ => True

/-- A read is executed, or its reply arrives. -/
def Action.delivers (a : Action) : Prop :=
  a = .execute .read_client false ∨ a = .receive .read_client

/-- The entries emitted so far are the first of those that are due, each of them once and in order,
and the reads under way bring the others. -/
def Delivers (s : Stream) : Prop :=
  s.emitted <+: s.due ∧ ∃ actions, (∀ a ∈ actions, a.delivers) ∧
    ∃ t, run step s actions = some t ∧ t.emitted = s.due

/-- A reply with entries is on its way. -/
def Session.hasEntries (session : Session) : Bool :=
  session.replies.any (fun reply => match reply.2 with
    | .entries _ => true
    | _ => false)

/-- No entry is appended to the stream between a timeout of an `XREAD` behind `$` and the execution
of the next one. -/
def NotInGap (s : Stream) : Action → Prop
  | .append db _ => db = s.config.db → s.firstRead.isSome = true → s.lastId = .dollar →
      s.read_client.session.blocked.isSome = true ∨ s.read_client.session.hasEntries = true
  | _ => True

instance : (a : Action) → Decidable (StaysUp a)
  | .doConnect .client _ => isTrue trivial
  | .doConnect .read_client _ => isFalse id
  | .connectFailed .client => isTrue trivial
  | .connectFailed .read_client => isFalse id
  | .disconnected .client => isTrue trivial
  | .disconnected .read_client => isFalse id
  | .execute .client _ => isTrue trivial
  | .execute .read_client _ => inferInstanceAs (Decidable (_ = false))
  | .connected _ => isTrue trivial
  | .executeOrphan _ => isTrue trivial
  | .timeout _ => isTrue trivial
  | .append _ _ => isTrue trivial
  | .receive _ => isTrue trivial

instance (s : Stream) : (a : Action) → Decidable (NotInGap s a)
  | .append _ _ => inferInstanceAs (Decidable (_ = _ → _ = true → _ = _ → _ = true ∨ _ = true))
  | .doConnect _ _ => isTrue trivial
  | .connected _ => isTrue trivial
  | .connectFailed _ => isTrue trivial
  | .disconnected _ => isTrue trivial
  | .execute _ _ => isTrue trivial
  | .executeOrphan _ => isTrue trivial
  | .timeout _ => isTrue trivial
  | .receive _ => isTrue trivial

/-! ## The end of a stream -/

section Ends

/-- No entry has an ID above the last one. -/
theorem id_le_lastOf {entries : List Entry}
    (hentries : entries.Pairwise (fun e e' => e.id < e'.id)) {e : Entry} (he : e ∈ entries) :
    e.id ≤ Stream.lastOf entries := by
  obtain ⟨front, last, rfl⟩ : ∃ front last, entries = front ++ [last] :=
    ⟨_, _, (List.dropLast_append_getLast (List.ne_nil_of_mem he)).symm⟩
  rw [Stream.lastOf, List.getLast?_append_of_ne_nil _ (by simp)]
  rcases List.mem_append.mp he with he | he
  · exact Nat.le_of_lt ((List.pairwise_append.mp hentries).2.2 e he last (by simp))
  · rw [List.mem_singleton.mp he]
    exact Nat.le_refl _

/-- No entry is behind the last one. -/
theorem behind_lastOf {entries : List Entry}
    (hentries : entries.Pairwise (fun e e' => e.id < e'.id)) :
    Stream.behind entries (Stream.lastOf entries) = [] := by
  rw [Stream.behind, List.filter_eq_nil_iff]
  intro e he
  simpa using id_le_lastOf hentries he

/-- Entries that are appended are behind every ID up to the last one. -/
theorem behind_new {entries batch : List Entry}
    (hsorted : (entries ++ batch).Pairwise (fun e e' => e.id < e'.id))
    (hpos : ∀ e ∈ batch, 0 < e.id) {n : EntryId} (hn : n ≤ Stream.lastOf entries) :
    Stream.behind (entries ++ batch) n = Stream.behind entries n ++ batch := by
  rw [behind_append]
  congr 1
  rw [Stream.behind, List.filter_eq_self]
  intro e he
  rw [decide_eq_true_eq]
  apply Nat.lt_of_le_of_lt hn
  rw [Stream.lastOf]
  cases hlast : entries.getLast? with
  | none => exact hpos e he
  | some last =>
    exact (List.pairwise_append.mp hsorted).2.2 last (List.mem_of_getLast? hlast) e he

/-- The last ID does not go back. -/
theorem lastOf_le_append {entries batch : List Entry}
    (hsorted : (entries ++ batch).Pairwise (fun e e' => e.id < e'.id)) :
    Stream.lastOf entries ≤ Stream.lastOf (entries ++ batch) := by
  cases hlast : entries.getLast? with
  | none =>
    rw [Stream.lastOf, hlast]
    exact Nat.zero_le _
  | some last =>
    have hid : Stream.lastOf entries = last.id := by
      rw [Stream.lastOf, hlast]
      rfl
    rw [hid]
    exact id_le_lastOf hsorted (List.mem_append_left _ (List.mem_of_getLast? hlast))

/-- A reply is empty only if there are no entries: `COUNT 0` means all. -/
theorem takeCount_eq_nil {count : ℕ} {entries : List Entry} :
    Stream.takeCount count entries = [] ↔ entries = [] := by
  rw [Stream.takeCount]
  split
  · exact Iff.rfl
  · next hcount => simp [List.take_eq_nil_iff, hcount]

/-- The entries behind the last one of a reply. -/
theorem behind_of_append {entries : List Entry}
    (hentries : entries.Pairwise (fun e e' => e.id < e'.id)) {n : EntryId} {front : List Entry}
    {e : Entry} {rest : List Entry} (h : Stream.behind entries n = front ++ e :: rest) :
    Stream.behind entries e.id = rest := by
  induction front generalizing n with
  | nil => exact behind_of_cons hentries h
  | cons x front ih => exact ih (behind_of_cons hentries h)

end Ends

/-! ## Where the reader is -/

/-- The reading side of the system. -/
structure Reader where
  db : ℕ
  client : Client
  lastId : LastId
  emitted : List Entry
  entries : List Entry
  firstRead : Option EntryId

def Stream.reader (s : Stream) : Reader :=
  ⟨s.config.db, s.read_client, s.lastId, s.emitted, s.entries, s.firstRead⟩

/-- The entries behind the position are those that remain to be emitted. -/
structure Position (r : Reader) (n : EntryId) : Prop where
  begun : ∃ top, r.firstRead = some top ∧ top ≤ Stream.lastOf r.entries
  le_last : n ≤ Stream.lastOf r.entries
  owed : r.emitted ++ Stream.behind r.entries n = dueOf r.entries r.firstRead

/-- An `XREAD` is on its way to the server, or the reply to its timeout on the way back. -/
def Reader.Asks (r : Reader) (lastId : LastId) : Prop :=
  r.client.session = ⟨r.db, [.XREAD lastId], none, []⟩ ∨
    r.client.session = ⟨r.db, [], none, [(.XREAD lastId, .nil)]⟩

/-- A read on its way is on the worker's database and brings no entries yet. -/
theorem Reader.Asks.session {r : Reader} {lastId : LastId} (h : r.Asks lastId) :
    r.client.session.db = r.db ∧ r.client.session.blocked = none ∧
      r.client.session.hasEntries = false := by
  rcases h with h | h
  · rw [h]
    exact ⟨rfl, rfl, rfl⟩
  · rw [h]
    exact ⟨rfl, rfl, rfl⟩

/-- Entries behind the position are on their way to the client. -/
structure Reader.Got (r : Reader) (batch : List Entry) : Prop where
  session : ∃ lastId, r.client.session = ⟨r.db, [], none, [(.XREAD lastId, .entries batch)]⟩
  connected : r.client.connected = true
  nonempty : batch ≠ []
  position : ∃ n rest, Position r n ∧ Stream.behind r.entries n = batch ++ rest

/-- The places of a reader whose connection stays up. -/
inductive Reading (r : Reader) : Prop where
  | opening (hconnected : r.client.connected = false) (hsession : r.client.session = .new)
      (hfirst : r.firstRead = none) (hemitted : r.emitted = [])
  | selecting (hsession : r.client.session = ⟨0, [.SELECT], none, []⟩ ∨
        r.client.session = ⟨r.db, [], none, [(.SELECT, .OK)]⟩)
      (hconnected : r.client.connected = true) (hfirst : r.firstRead = none)
      (hemitted : r.emitted = [])
  | atTop (hasks : r.Asks .dollar) (hconnected : r.client.connected = true)
      (hlastId : r.lastId = .dollar) (hemitted : r.emitted = [])
      (hfirst : ∀ top ∈ r.firstRead, top ≤ Stream.lastOf r.entries)
      (hdue : dueOf r.entries r.firstRead = [])
  | next (n : EntryId) (hasks : r.Asks (.id n)) (hconnected : r.client.connected = true)
      (hlastId : r.lastId = .id n) (hpos : Position r n)
  | waits (lastId : LastId) (n : EntryId)
      (hsession : r.client.session = ⟨r.db, [.XREAD lastId], some n, []⟩)
      (hconnected : r.client.connected = true) (hlastId : r.lastId = lastId)
      (hid : lastId = .dollar ∧ r.emitted = [] ∨ lastId = .id n) (hpos : Position r n)
      (hnone : Stream.behind r.entries n = [])
  | got (batch : List Entry) (hgot : r.Got batch)

/-- The client that does not read selects its database and saves IDs. -/
structure Quiet (c : Client) : Prop where
  commands : ∀ cmd ∈ c.session.pending, cmd = .SELECT ∨ ∃ lastId, cmd = .SET lastId
  blocked : c.session.blocked = none

/-- What holds as long as the connection of the reader stays up. -/
structure Upright (s : Stream) : Prop where
  top : s.config.start_from = .top
  ctx : s.read_client.ctx = true
  quiet : Quiet s.client
  reading : Reading s.reader

/-- What was emitted is the beginning of what is due. -/
theorem Reading.emitted_prefix {r : Reader} (h : Reading r) :
    r.emitted <+: dueOf r.entries r.firstRead := by
  cases h with
  | opening _ _ _ hemitted =>
    rw [hemitted]
    exact List.nil_prefix
  | selecting _ _ _ hemitted =>
    rw [hemitted]
    exact List.nil_prefix
  | atTop _ _ _ hemitted _ _ =>
    rw [hemitted]
    exact List.nil_prefix
  | next n _ _ _ hpos => exact ⟨_, hpos.owed⟩
  | waits _ n _ _ _ _ hpos _ => exact ⟨_, hpos.owed⟩
  | got _ hgot =>
    obtain ⟨n, _, hpos, -⟩ := hgot.position
    exact ⟨_, hpos.owed⟩

/-! ## The other client -/

section Others

variable {s : Stream}

/-- Events that leave the reading side alone. -/
theorem Upright.congr (hs : Upright s) {t : Stream} (hconfig : t.config = s.config)
    (hreader : t.reader = s.reader) (hquiet : Quiet t.client) : Upright t := by
  have hread : t.read_client = s.read_client := congrArg Reader.client hreader
  refine ⟨?_, ?_, hquiet, ?_⟩
  · rw [hconfig]
    exact hs.top
  · rw [hread]
    exact hs.ctx
  · rw [hreader]
    exact hs.reading

/-- A new connection is quiet. -/
theorem quiet_new {c : Client} (hc : c.session = .new) : Quiet c := by
  refine ⟨?_, ?_⟩
  · simp [hc]
  · rw [hc]
    rfl

/-- The callbacks of the client that does not read only note whether it is connected. -/
theorem callback_quiet (s : Stream) {cmd : Command}
    (hcmd : cmd = .SELECT ∨ ∃ lastId, cmd = .SET lastId) (reply : Reply) :
    ∃ c, c.session = s.client.session ∧
      s.callback .client cmd reply = { s with client := c } := by
  rcases hcmd with rfl | ⟨lastId, rfl⟩
  · cases reply with
    | OK => exact ⟨{ s.client with ok := true }, rfl, rfl⟩
    | nil => exact ⟨{ s.client with reconPending := true }, rfl, rfl⟩
    | entries batch => exact ⟨{ s.client with reconPending := true }, rfl, rfl⟩
    | value lastId => exact ⟨{ s.client with reconPending := true }, rfl, rfl⟩
    | error => exact ⟨{ s.client with reconPending := true }, rfl, rfl⟩
  · exact ⟨s.client, rfl, rfl⟩

/-- Null replies to the commands of the quiet client reach that client only. -/
theorem null_replies_quiet (s : Stream) {cmds : List Command}
    (hcmds : ∀ cmd ∈ cmds, cmd = .SELECT ∨ ∃ lastId, cmd = .SET lastId) :
    ∃ c, cmds.foldl (fun s cmd => s.callback .client cmd .error) s = { s with client := c } := by
  induction cmds generalizing s with
  | nil => exact ⟨s.client, rfl⟩
  | cons cmd cmds ih =>
    obtain ⟨c, -, hc⟩ := callback_quiet s (hcmds cmd List.mem_cons_self) .error
    obtain ⟨c', hc'⟩ := ih (s.callback .client cmd .error)
      (fun other hother => hcmds other (List.mem_cons_of_mem cmd hother))
    refine ⟨c', ?_⟩
    rw [List.foldl_cons, hc', hc]

/-- Giving up the other connection leaves the reading side alone. -/
theorem free_quiet (hquiet : Quiet s.client) :
    (s.free .client).config = s.config ∧ (s.free .client).reader = s.reader := by
  obtain ⟨c, hc⟩ := null_replies_quiet s hquiet.commands
  refine ⟨(congrArg Stream.config hc).trans rfl, (congrArg Stream.reader hc).trans rfl⟩

/-- The quiet client may lose its connection. -/
theorem Upright.reset_client (hs : Upright s) {c : Client} (hc : c.session = .new) :
    Upright { s.free .client with client := c } := by
  obtain ⟨hconfig, hreader⟩ := free_quiet hs.quiet
  exact hs.congr (t := { s.free .client with client := c }) hconfig hreader (quiet_new hc)

/-- It may connect again. -/
theorem Upright.doConnect_client (hs : Upright s) (failed : Bool) :
    Upright (s.doConnect .client failed) := by
  by_cases hctx : s.client.ctx = true
  · rw [Stream.doConnect, Stream.conn_client, if_pos hctx]
    exact hs.reset_client rfl
  · rw [Stream.doConnect, Stream.conn_client, if_neg hctx]
    exact hs.congr rfl rfl (quiet_new rfl)

/-- One more command on the other client. -/
theorem Quiet.send {c : Client} (hquiet : Quiet c) {cmd : Command}
    (hcmd : cmd = .SELECT ∨ ∃ lastId, cmd = .SET lastId) :
    Quiet { c with session := c.session.send cmd } := by
  refine ⟨?_, hquiet.blocked⟩
  intro other hother
  rw [Session.pending_send] at hother
  rcases List.mem_append.mp hother with hother | hother
  · exact hquiet.commands other hother
  · rw [List.mem_singleton.mp hother]
    exact hcmd

/-- It selects its database when it is connected. -/
theorem Upright.connected_client (hs : Upright s) : Upright (s.connected .client) := by
  have hquiet : Quiet { s.client with connected := true } :=
    ⟨hs.quiet.commands, hs.quiet.blocked⟩
  exact hs.congr rfl rfl (hquiet.send (Or.inl rfl))

/-- It may fail to connect. -/
theorem Upright.connectFailed_client (hs : Upright s) : Upright (s.connectFailed .client) := by
  have hgiven : Upright { s with client := { s.client with ctx := false, reconPending := true } } :=
    hs.congr rfl rfl ⟨hs.quiet.commands, hs.quiet.blocked⟩
  exact hgiven.reset_client rfl

/-- The server executes a command that reads nothing. -/
theorem executeHead_quiet (s : Stream) (session : Session) {cmd : Command}
    (hcmd : cmd = .SELECT ∨ ∃ lastId, cmd = .SET lastId) (rest : List Command) (fails : Bool) :
    (s.executeHead session cmd rest fails).2.config = s.config ∧
      (s.executeHead session cmd rest fails).2.reader = s.reader ∧
      (s.executeHead session cmd rest fails).1.blocked = session.blocked := by
  rcases hcmd with rfl | ⟨lastId, rfl⟩
  · cases fails with
    | true => exact ⟨rfl, rfl, rfl⟩
    | false => exact ⟨rfl, rfl, rfl⟩
  · cases fails with
    | true => exact ⟨rfl, rfl, rfl⟩
    | false =>
      refine ⟨rfl, ?_, rfl⟩
      have hentries := entries_setSaved s session.db (some lastId)
      exact congrArg (fun entries => { s.reader with entries }) hentries

/-- Its commands do not touch the stream. -/
theorem Upright.execute_client (hs : Upright s) {fails : Bool} {t : Stream}
    (h : s.execute .client fails = some t) : Upright t := by
  unfold Stream.execute at h
  dsimp only [Stream.conn_client] at h
  split at h
  · next cmd rest hsent hblocked =>
    split at h
    · obtain rfl := Option.some.inj h
      have hcmd := hs.quiet.commands cmd (by simp [Session.pending, hsent])
      obtain ⟨hpending, -, -⟩ := executeHead_spec s hsent fails
      obtain ⟨hconfig, hreader, hstill⟩ := executeHead_quiet s s.client.session hcmd rest fails
      refine hs.congr hconfig hreader ⟨?_, hstill.trans hblocked⟩
      intro other hother
      exact hs.quiet.commands other (hpending ▸ hother)
    · simp at h
  · simp at h

/-- Commands of connections that went down read nothing. -/
theorem Upright.executeOrphan (hs : Upright s) {i : ℕ} {t : Stream}
    (h : s.executeOrphan i = some t) : Upright t := by
  unfold Stream.executeOrphan at h
  split at h
  · simp at h
  · next session hi =>
    split at h
    · simp at h
    · obtain rfl := Option.some.inj h
      exact hs.congr rfl rfl hs.quiet
    · next cmd rest hread hsent =>
      obtain rfl := Option.some.inj h
      cases cmd with
      | XREAD lastId => exact absurd rfl (hread lastId)
      | GET => exact hs.congr rfl rfl hs.quiet
      | SELECT => exact hs.congr rfl rfl hs.quiet
      | SET lastId =>
        obtain ⟨hconfig, hreader, -⟩ :=
          executeHead_quiet s session (Or.inr ⟨lastId, rfl⟩) rest false
        exact hs.congr hconfig hreader hs.quiet

/-- It never waits for entries. -/
theorem Upright.timeout_client (hs : Upright s) : s.timeout .client = none := by
  simp only [Stream.timeout, Stream.conn_client, hs.quiet.blocked]

/-- A reply arrives at the other client. -/
theorem Upright.receive_client (hs : Upright s) {t : Stream} (h : s.receive .client = some t) :
    Upright t := by
  unfold Stream.receive at h
  dsimp only [Stream.conn_client] at h
  split at h
  · simp at h
  · next cmd reply rest hreplies =>
    obtain rfl := Option.some.inj h
    have hpending := pending_of_replies hreplies
    have hcmd := hs.quiet.commands cmd (by simp [hpending])
    obtain ⟨c, hc, hcallback⟩ := callback_quiet
      (s.setConn .client
        { s.client with session := { s.client.session with replies := rest } }) hcmd reply
    rw [hcallback]
    refine hs.congr rfl rfl ⟨?_, ?_⟩
    · intro other hother
      rw [hc] at hother
      exact hs.quiet.commands other (hpending ▸ List.mem_cons_of_mem cmd hother)
    · rw [hc]
      exact hs.quiet.blocked

end Others

/-! ## The reader -/

section Positions

variable {r : Reader} {n : EntryId}

/-- A position stays one when entries are appended. -/
theorem Position.append (hpos : Position r n) {batch : List Entry}
    (hsorted : (r.entries ++ batch).Pairwise (fun e e' => e.id < e'.id))
    (hnew : ∀ e ∈ batch, 0 < e.id) : Position { r with entries := r.entries ++ batch } n := by
  obtain ⟨top, htop, hle⟩ := hpos.begun
  have howed := hpos.owed
  have hlast := lastOf_le_append hsorted
  refine ⟨⟨top, htop, Nat.le_trans hle hlast⟩, Nat.le_trans hpos.le_last hlast, ?_⟩
  rw [htop] at howed ⊢
  have hdue : dueOf (r.entries ++ batch) (some top) = dueOf r.entries (some top) ++ batch :=
    behind_new hsorted hnew hle
  rw [hdue, ← howed, behind_new hsorted hnew hpos.le_last, List.append_assoc]

/-- What is emitted from a position on moves it to the last of these entries. -/
theorem Position.emit (hpos : Position r n)
    (hentries : r.entries.Pairwise (fun e e' => e.id < e'.id)) {front : List Entry} {last : Entry}
    {rest : List Entry} (hbehind : Stream.behind r.entries n = front ++ last :: rest) :
    Position { r with emitted := r.emitted ++ (front ++ [last]) } last.id := by
  have hlast : last ∈ Stream.behind r.entries n := by simp [hbehind]
  refine ⟨hpos.begun, id_le_lastOf hentries (List.mem_filter.mp hlast).1, ?_⟩
  rw [← hpos.owed, hbehind, behind_of_append hentries hbehind]
  simp

end Positions

section Reads

variable {s : Stream}

/-- The stream of the worker has its entries in the order of their IDs. -/
theorem ascending_entries (s : Stream) : s.entries.Pairwise (fun e e' => e.id < e'.id) :=
  (s.dbs s.config.db).ascending

/-- An event of the reading side. -/
theorem Upright.move (hs : Upright s) {t : Stream} (hconfig : t.config = s.config)
    (hclient : t.client = s.client) (hctx : t.read_client.ctx = s.read_client.ctx)
    (hreading : Reading t.reader) : Upright t := by
  refine ⟨?_, ?_, ?_, hreading⟩
  · rw [hconfig]
    exact hs.top
  · rw [hctx]
    exact hs.ctx
  · rw [hclient]
    exact hs.quiet

/-- The reader starts at the end of the stream when it is connected. -/
theorem Upright.connected_read (hs : Upright s) (hconnected : s.read_client.connected = false) :
    Upright (s.connected .read_client) := by
  have hnot {P : Prop} (h : s.reader.client.connected = true) : P :=
    absurd (hconnected.symm.trans h) (by simp)
  refine hs.move (t := s.connected .read_client) rfl rfl rfl ?_
  cases hs.reading with
  | opening _ hsession hfirst hemitted =>
    have hsent : (s.connected .read_client).read_client.session = ⟨0, [.SELECT], none, []⟩ := by
      have hnew : s.read_client.session = .new := hsession
      simp only [Stream.connected, Stream.Execute, Stream.setConn_read_client,
        Stream.conn_read_client, hnew]
      rfl
    exact .selecting (Or.inl hsent) rfl hfirst hemitted
  | selecting _ h _ _ => exact hnot h
  | atTop _ h _ _ _ _ => exact hnot h
  | next _ _ h _ _ => exact hnot h
  | waits _ _ _ h _ _ _ _ => exact hnot h
  | got _ hgot => exact hnot hgot.connected

/-- The server executes the command of the client that reads. -/
theorem execute_read {cmd : Command} {db : ℕ}
    (hsession : s.read_client.session = ⟨db, [cmd], none, []⟩)
    (hconnected : s.read_client.connected = true) :
    s.execute .read_client false = some
      ((s.executeHead ⟨db, [cmd], none, []⟩ cmd [] false).2.setConn .read_client
        { s.read_client with
          session := (s.executeHead ⟨db, [cmd], none, []⟩ cmd [] false).1 }) := by
  simp only [Stream.execute, Stream.conn_read_client, hsession, hconnected, if_true]

/-- Nothing to execute. -/
theorem execute_read_idle (hidle : s.read_client.session.sent = [] ∨
      s.read_client.session.blocked.isSome = true) : s.execute .read_client false = none := by
  unfold Stream.execute
  dsimp only [Stream.conn_read_client]
  split
  · next hsent hblocked =>
    rcases hidle with h | h
    · rw [hsent] at h
      simp at h
    · rw [hblocked] at h
      simp at h
  · rfl

/-- An `XREAD` behind a position waits, or gets a reply. -/
theorem Upright.execute_next (hs : Upright s) {n : EntryId}
    (hsession : s.read_client.session = ⟨s.config.db, [.XREAD (.id n)], none, []⟩)
    (hconnected : s.read_client.connected = true) (hlastId : s.lastId = .id n)
    (hpos : Position s.reader n) :
    ∃ t, s.execute .read_client false = some t ∧ Upright t ∧ t.emitted = s.emitted ∧
      t.due = s.due ∧ (Stream.behind s.entries n ≠ [] → ∃ batch, t.reader.Got batch) := by
  obtain ⟨top, hfirst, hle⟩ := hpos.begun
  have hnote : s.noteRead s.config.db = s := by
    have hsame :
        some (s.firstRead.getD (Stream.lastOf (s.dbs s.config.db).stream)) = s.firstRead := by
      have hf : s.firstRead = some top := hfirst
      rw [hf]
      rfl
    rw [Stream.noteRead, hsame]
  have hexecute := execute_read hsession hconnected
  cases hbatch : Stream.takeCount s.config.entries_per_read (Stream.behind s.entries n) with
  | nil =>
    have hnone : Stream.behind s.entries n = [] := takeCount_eq_nil.mp hbatch
    have hhead : s.executeHead ⟨s.config.db, [.XREAD (.id n)], none, []⟩ (.XREAD (.id n)) [] false =
        (⟨s.config.db, [.XREAD (.id n)], some n, []⟩, s) := by
      rw [Stream.entries] at hbatch
      simp only [Stream.executeHead, hbatch, hnote, Bool.false_eq_true, if_false]
    rw [hhead] at hexecute
    refine ⟨_, hexecute, ?_, rfl, rfl, fun hne => absurd hnone hne⟩
    refine hs.move (t := s.setConn .read_client _) rfl rfl rfl ?_
    exact .waits (.id n) n rfl hconnected hlastId (Or.inr rfl)
      ⟨hpos.begun, hpos.le_last, hpos.owed⟩ hnone
  | cons e batch =>
    have hhead : s.executeHead ⟨s.config.db, [.XREAD (.id n)], none, []⟩ (.XREAD (.id n)) [] false =
        (⟨s.config.db, [], none, [(.XREAD (.id n), .entries (e :: batch))]⟩, s) := by
      rw [Stream.entries] at hbatch
      simp only [Stream.executeHead, hbatch, hnote, Bool.false_eq_true, if_false, List.nil_append]
    rw [hhead] at hexecute
    obtain ⟨rest, hrest⟩ := takeCount_prefix s.config.entries_per_read (Stream.behind s.entries n)
    rw [hbatch] at hrest
    have hgot : Reader.Got (Stream.reader (s.setConn .read_client { s.read_client with session :=
        ⟨s.config.db, [], none, [(.XREAD (.id n), .entries (e :: batch))]⟩ })) (e :: batch) :=
      ⟨⟨.id n, rfl⟩, hconnected, by simp, n, rest, ⟨hpos.begun, hpos.le_last, hpos.owed⟩,
        hrest.symm⟩
    refine ⟨_, hexecute, ?_, rfl, rfl, fun _ => ⟨e :: batch, hgot⟩⟩
    exact hs.move (t := s.setConn .read_client _) rfl rfl rfl (.got (e :: batch) hgot)

/-- The server executes a command of the client that reads. -/
theorem Upright.execute_read (hs : Upright s) {t : Stream}
    (h : s.execute .read_client false = some t) : Upright t := by
  have hidle {P : Prop} (hidle : s.read_client.session.sent = [] ∨
      s.read_client.session.blocked.isSome = true) : P := by
    rw [execute_read_idle hidle] at h
    simp at h
  cases hs.reading with
  | opening _ hsession _ _ =>
    exact hidle (Or.inl (congrArg Session.sent hsession))
  | selecting hsession hconnected hfirst hemitted =>
    rcases hsession with hsession | hsession
    · obtain rfl := Option.some.inj ((Redis.execute_read hsession hconnected).symm.trans h)
      refine hs.move rfl rfl rfl ?_
      exact .selecting (Or.inr rfl) hconnected hfirst hemitted
    · exact hidle (Or.inl (congrArg Session.sent hsession))
  | atTop hasks hconnected hlastId hemitted hfirst hdue =>
    rcases hasks with hsession | hsession
    · obtain rfl := Option.some.inj ((Redis.execute_read hsession hconnected).symm.trans h)
      refine hs.move rfl rfl rfl ?_
      have hnone := behind_lastOf (ascending_entries s)
      -- The first read is noted here; before that, nothing is due either.
      have hnoted : s.firstRead.getD (Stream.lastOf s.entries) ≤ Stream.lastOf s.entries ∧
          Stream.behind s.entries (s.firstRead.getD (Stream.lastOf s.entries)) = [] := by
        cases hread : s.firstRead with
        | none => exact ⟨Nat.le_refl _, hnone⟩
        | some top =>
          have hsome : s.reader.firstRead = some top := hread
          rw [hsome] at hdue
          exact ⟨hfirst top hsome, hdue⟩
      have hpos : s.emitted ++ Stream.behind s.entries (Stream.lastOf s.entries) =
          Stream.behind s.entries (s.firstRead.getD (Stream.lastOf s.entries)) := by
        have hempty : s.emitted = [] := hemitted
        rw [hempty, hnone, hnoted.2]
        rfl
      exact .waits .dollar (Stream.lastOf s.entries) rfl hconnected hlastId
        (Or.inl ⟨rfl, hemitted⟩) ⟨⟨_, rfl, hnoted.1⟩, Nat.le_refl _, hpos⟩ hnone
    · exact hidle (Or.inl (congrArg Session.sent hsession))
  | next n hasks hconnected hlastId hpos =>
    rcases hasks with hsession | hsession
    · obtain ⟨u, hu, hupright, -⟩ := hs.execute_next hsession hconnected hlastId hpos
      rw [← Option.some.inj (hu.symm.trans h)]
      exact hupright
    · exact hidle (Or.inl (congrArg Session.sent hsession))
  | waits lastId n hsession _ _ _ _ _ =>
    exact hidle (Or.inr (congrArg (fun session => session.blocked.isSome) hsession))
  | got batch hgot =>
    obtain ⟨lastId, hsession⟩ := hgot.session
    exact hidle (Or.inl (congrArg Session.sent hsession))

/-- A block timeout: nothing is behind the position. -/
theorem Upright.timeout_read (hs : Upright s) {t : Stream} (h : s.timeout .read_client = some t) :
    Upright t := by
  have hidle {P : Prop} (hidle : s.read_client.session.blocked = none) : P := by
    simp only [Stream.timeout, Stream.conn_read_client, hidle, reduceCtorEq] at h
  cases hs.reading with
  | opening _ hsession _ _ => exact hidle (congrArg Session.blocked hsession)
  | selecting hsession _ _ _ =>
    rcases hsession with hsession | hsession
    · exact hidle (congrArg Session.blocked hsession)
    · exact hidle (congrArg Session.blocked hsession)
  | atTop hasks _ _ _ _ _ => exact hidle hasks.session.2.1
  | next n hasks _ _ _ => exact hidle hasks.session.2.1
  | got batch hgot =>
    obtain ⟨lastId, hsession⟩ := hgot.session
    exact hidle (congrArg Session.blocked hsession)
  | waits lastId n hsession hconnected hlastId hid hpos hnone =>
    have hwaits : s.read_client.session = ⟨s.config.db, [.XREAD lastId], some n, []⟩ := hsession
    simp only [Stream.timeout, Stream.conn_read_client, hwaits, Option.some.injEq] at h
    subst h
    refine hs.move (t := s.setConn .read_client _) rfl rfl rfl ?_
    rcases hid with ⟨rfl, hemitted⟩ | rfl
    · -- Nothing was emitted, and nothing is due.
      obtain ⟨top, hfirst, hle⟩ := hpos.begun
      refine .atTop (Or.inr rfl) hconnected hlastId hemitted ?_ ?_
      · intro other hother
        have hsame : s.reader.firstRead = some other := hother
        rw [Option.some.inj (hsame.symm.trans hfirst)]
        exact hle
      · have howed := hpos.owed
        rw [hemitted, hnone] at howed
        exact howed.symm
    · exact .next n (Or.inr rfl) hconnected hlastId ⟨hpos.begun, hpos.le_last, hpos.owed⟩

/-- The next `XREAD` is sent. -/
theorem nextRead_eq (hctx : s.read_client.ctx = true) :
    s.nextRead = s.Execute .read_client (.XREAD s.lastId) := if_pos hctx

/-- What a reply with entries changes. -/
theorem receiveEntries_eq (s : Stream) (front : List Entry) (last : Entry) :
    (front ++ [last]).foldl Stream.receiveEntry s =
      { s with lastId := .id last.id, emitted := s.emitted ++ (front ++ [last]) } := by
  induction front generalizing s with
  | nil => rfl
  | cons e front ih =>
    rw [List.cons_append, List.foldl_cons, ih]
    simp [Stream.receiveEntry]

/-- Saving the last ID is a command of the other client. -/
theorem saveLastId_quiet (hquiet : Quiet s.client) :
    ∃ c, Quiet c ∧ s.saveLastId = { s with client := c } := by
  rw [Stream.saveLastId]
  split
  · exact ⟨_, hquiet.send (Or.inr ⟨s.lastId, rfl⟩), rfl⟩
  · exact ⟨s.client, hquiet, rfl⟩

/-- The entries of a reply are emitted, and the next `XREAD` goes on behind them. -/
theorem Upright.receive_got (hs : Upright s) {batch : List Entry} (hgot : s.reader.Got batch) :
    ∃ t, s.receive .read_client = some t ∧ Upright t ∧ t.emitted = s.emitted ++ batch ∧
      t.due = s.due := by
  obtain ⟨⟨lastId, hsession'⟩, hconnected, hne, n, rest, hpos, hbehind⟩ := hgot
  have hsession : s.read_client.session =
      ⟨s.config.db, [], none, [(.XREAD lastId, .entries batch)]⟩ := hsession'
  obtain ⟨front, last, rfl⟩ : ∃ front last, batch = front ++ [last] :=
    ⟨_, _, (List.dropLast_append_getLast hne).symm⟩
  let taken : Stream := s.setConn .read_client
    { s.read_client with session := ⟨s.config.db, [], none, []⟩ }
  let emitted : Stream :=
    { taken with lastId := .id last.id, emitted := s.emitted ++ (front ++ [last]) }
  have hemitted : (front ++ [last]).foldl Stream.receiveEntry taken = emitted :=
    receiveEntries_eq taken front last
  obtain ⟨c, hc, hsave⟩ := saveLastId_quiet (s := emitted) hs.quiet
  have hreceive : s.receive .read_client = some (Stream.nextRead
      (Stream.saveLastId ((front ++ [last]).foldl Stream.receiveEntry taken))) := by
    simp only [Stream.receive, Stream.conn_read_client, hsession]
    rfl
  rw [hemitted, hsave, nextRead_eq (s := { emitted with client := c }) hs.ctx] at hreceive
  refine ⟨_, hreceive, ⟨hs.top, hs.ctx, hc, ?_⟩, rfl, rfl⟩
  have hbehind' : Stream.behind s.entries n = front ++ last :: rest := by
    rw [List.append_assoc] at hbehind
    exact hbehind
  have hnext := hpos.emit (ascending_entries s) hbehind'
  exact .next last.id (Or.inl rfl) hconnected rfl ⟨hnext.begun, hnext.le_last, hnext.owed⟩

/-- After a timeout the same command is sent again. -/
theorem Upright.receive_again (hs : Upright s) {lastId : LastId} (hlastId : s.lastId = lastId)
    (hsession : s.read_client.session = ⟨s.config.db, [], none, [(.XREAD lastId, .nil)]⟩) :
    s.receive .read_client = some (s.setConn .read_client
      { s.read_client with session := ⟨s.config.db, [.XREAD lastId], none, []⟩ }) := by
  simp only [Stream.receive, Stream.conn_read_client, hsession]
  rw [← hlastId]
  exact congrArg some (nextRead_eq hs.ctx)

/-- A reply arrives at the client that reads. -/
theorem Upright.receive_read (hs : Upright s) {t : Stream}
    (h : s.receive .read_client = some t) : Upright t := by
  have hidle {P : Prop} (hidle : s.read_client.session.replies = []) : P := by
    simp only [Stream.receive, Stream.conn_read_client, hidle, reduceCtorEq] at h
  cases hs.reading with
  | opening _ hsession _ _ => exact hidle (congrArg Session.replies hsession)
  | selecting hsession hconnected hfirst hemitted =>
    rcases hsession with hsession | hsession
    · exact hidle (congrArg Session.replies hsession)
    · have hselected : s.read_client.session = ⟨s.config.db, [], none, [(.SELECT, .OK)]⟩ := hsession
      let ok : Stream := s.setConn .read_client
        { s.read_client with ok := true, session := ⟨s.config.db, [], none, []⟩ }
      have hreceive : s.receive .read_client = some ok.onConnected := by
        simp only [Stream.receive, Stream.conn_read_client, hselected]
        rfl
      have hconnect : ok.onConnected = Stream.nextRead { ok with lastId := .dollar } := by
        rw [Stream.onConnected, show ok.config.start_from = .top from hs.top]
      rw [hconnect, nextRead_eq (s := { ok with lastId := .dollar }) hs.ctx] at hreceive
      rw [← Option.some.inj (hreceive.symm.trans h)]
      refine hs.move rfl rfl rfl ?_
      have hnone : s.firstRead = none := hfirst
      refine .atTop (Or.inl rfl) hconnected rfl hemitted ?_ ?_
      · intro top htop
        have hsome : s.firstRead = some top := htop
        rw [hnone] at hsome
        simp at hsome
      · exact congrArg (dueOf s.entries) hnone
  | atTop hasks hconnected hlastId hemitted hfirst hdue =>
    rcases hasks with hsession | hsession
    · exact hidle (congrArg Session.replies hsession)
    · rw [← Option.some.inj ((hs.receive_again hlastId hsession).symm.trans h)]
      refine hs.move (t := s.setConn .read_client _) rfl rfl rfl ?_
      exact .atTop (Or.inl rfl) hconnected hlastId hemitted hfirst hdue
  | next n hasks hconnected hlastId hpos =>
    rcases hasks with hsession | hsession
    · exact hidle (congrArg Session.replies hsession)
    · rw [← Option.some.inj ((hs.receive_again hlastId hsession).symm.trans h)]
      refine hs.move (t := s.setConn .read_client _) rfl rfl rfl ?_
      exact .next n (Or.inl rfl) hconnected hlastId ⟨hpos.begun, hpos.le_last, hpos.owed⟩
  | waits lastId n hsession _ _ _ _ _ => exact hidle (congrArg Session.replies hsession)
  | got batch hgot =>
    obtain ⟨u, hu, hupright, -⟩ := hs.receive_got hgot
    rw [← Option.some.inj (hu.symm.trans h)]
    exact hupright

end Reads

section Appends

variable {s : Stream}

/-- Who does not wait for entries of the database is not served. -/
theorem serve_idle {db : ℕ} {role : Role} (hidle : (s.conn role).session.blocked = none ∨
    (s.conn role).session.db ≠ db) : s.serve db role = s := by
  unfold Stream.serve
  dsimp only
  split
  · rfl
  · next n hblocked =>
    rcases hidle with h | h
    · rw [h] at hblocked
      simp at hblocked
    · rw [if_neg h]

/-- Who waits is served. -/
theorem serve_waiting {db : ℕ} {lastId : LastId} {n : EntryId}
    (hsession : s.read_client.session = ⟨db, [.XREAD lastId], some n, []⟩) :
    s.serve db .read_client = s.setConn .read_client { s.read_client with
      session := ⟨db, [], none, [(.XREAD lastId, .entries (Stream.takeCount
        s.config.entries_per_read (Stream.behind (s.dbs db).stream n)))]⟩ } := by
  simp only [Stream.serve, Stream.conn_read_client, hsession, if_true]
  rfl

/-- The reader only waits in its own database. -/
theorem Reading.blocked {r : Reader} (h : Reading r) :
    r.client.session.blocked = none ∨ r.client.session.db = r.db := by
  cases h with
  | opening _ hsession _ _ => exact Or.inl (congrArg Session.blocked hsession)
  | selecting hsession _ _ _ =>
    rcases hsession with hsession | hsession
    · exact Or.inl (congrArg Session.blocked hsession)
    · exact Or.inr (congrArg Session.db hsession)
  | atTop hasks _ _ _ _ _ => exact Or.inr hasks.session.1
  | next n hasks _ _ _ => exact Or.inr hasks.session.1
  | waits lastId n hsession _ _ _ _ _ => exact Or.inr (congrArg Session.db hsession)
  | got batch hgot =>
    obtain ⟨lastId, hsession⟩ := hgot.session
    exact Or.inr (congrArg Session.db hsession)

/-- Entries are appended in another database. -/
theorem Upright.append_other (hs : Upright s) {db : ℕ} (hother : db ≠ s.config.db)
    (store : Store) : Upright ((s.setStore db store).serve db .read_client) := by
  have hentries : Stream.entries (s.setStore db store) = s.entries :=
    congrArg Store.stream (if_neg hother.symm)
  have hstored : Upright (s.setStore db store) :=
    hs.congr rfl (congrArg (fun entries => { s.reader with entries }) hentries) hs.quiet
  rw [serve_idle]
  · exact hstored
  · rcases hs.reading.blocked with h | h
    · exact Or.inl h
    · exact Or.inr (fun hdb => hother (hdb.symm.trans h))

/-- Entries are appended to the stream of the worker. -/
theorem Upright.append_own (hs : Upright s) {batch : List Entry} {store : Store} (hne : batch ≠ [])
    (hnew : ∀ e ∈ batch, 0 < e.id) (hstream : store.stream = s.entries ++ batch)
    (hgap : s.firstRead.isSome = true → s.lastId = .dollar →
      s.read_client.session.blocked.isSome = true ∨ s.read_client.session.hasEntries = true) :
    Upright ((s.setStore s.config.db store).serve s.config.db .read_client) := by
  have hsorted : (s.entries ++ batch).Pairwise (fun e e' => e.id < e'.id) :=
    hstream ▸ store.ascending
  have hentries : Stream.entries (s.setStore s.config.db store) = s.entries ++ batch :=
    (congrArg Store.stream (if_pos rfl)).trans hstream
  have hreader : Stream.reader (s.setStore s.config.db store) =
      { s.reader with entries := s.entries ++ batch } :=
    congrArg (fun entries => { s.reader with entries }) hentries
  -- Nobody waits.
  have hidle (hblocked : s.read_client.session.blocked = none)
      (hreading : Reading { s.reader with entries := s.entries ++ batch }) :
      Upright ((s.setStore s.config.db store).serve s.config.db .read_client) := by
    rw [@serve_idle (s.setStore s.config.db store) _ .read_client (Or.inl hblocked)]
    exact hs.move rfl rfl rfl (hreader ▸ hreading)
  cases hs.reading with
  | opening hconnected hsession hfirst hemitted =>
    exact hidle (congrArg Session.blocked hsession)
      (.opening hconnected hsession hfirst hemitted)
  | selecting hsession hconnected hfirst hemitted =>
    apply hidle
    · rcases hsession with hsession | hsession
      · exact congrArg Session.blocked hsession
      · exact congrArg Session.blocked hsession
    · exact .selecting hsession hconnected hfirst hemitted
  | atTop hasks hconnected hlastId hemitted hfirst hdue =>
    have hblocked : s.read_client.session.blocked = none := hasks.session.2.1
    have hreplies : s.read_client.session.hasEntries = false := hasks.session.2.2
    -- It is too early for the entries to be due, or they come in the gap.
    have hnone : s.firstRead = none := by
      cases hread : s.firstRead with
      | none => rfl
      | some top =>
        have h := hgap (by rw [hread]; rfl) hlastId
        rw [hblocked, hreplies] at h
        simp at h
    refine hidle hblocked (.atTop hasks hconnected hlastId hemitted ?_ ?_)
    · intro top htop
      have hsome : s.firstRead = some top := htop
      rw [hnone] at hsome
      simp at hsome
    · exact congrArg (dueOf (s.entries ++ batch)) hnone
  | next n hasks hconnected hlastId hpos =>
    have hblocked : s.read_client.session.blocked = none := hasks.session.2.1
    exact hidle hblocked (.next n hasks hconnected hlastId (hpos.append hsorted hnew))
  | got replied hgot =>
    obtain ⟨⟨lastId, hsession⟩, hconnected, hreplied, n, rest, hpos, hbehind⟩ := hgot
    refine hidle (congrArg Session.blocked hsession) (.got replied ⟨⟨lastId, hsession⟩, hconnected,
      hreplied, n, rest ++ batch, hpos.append hsorted hnew, ?_⟩)
    have hold : Stream.behind s.entries n = replied ++ rest := hbehind
    rw [behind_new hsorted hnew hpos.le_last, hold, List.append_assoc]
  | waits lastId n hsession hconnected hlastId hid hpos hnone =>
    have hwaits : s.read_client.session = ⟨s.config.db, [.XREAD lastId], some n, []⟩ := hsession
    have hbehind : Stream.behind (s.entries ++ batch) n = batch := by
      have hold : Stream.behind s.entries n = [] := hnone
      rw [behind_new hsorted hnew hpos.le_last, hold, List.nil_append]
    obtain ⟨rest, hrest⟩ := takeCount_prefix s.config.entries_per_read batch
    have hserve := serve_waiting (s := s.setStore s.config.db store) hwaits
    have hreply : Stream.behind ((s.setStore s.config.db store).dbs s.config.db).stream n = batch :=
      (congrArg (fun entries => Stream.behind entries n) hentries).trans hbehind
    rw [hreply] at hserve
    rw [hserve]
    refine hs.move rfl rfl rfl ?_
    have hgrown : Position (Stream.reader (s.setStore s.config.db store)) n := by
      rw [hreader]
      exact hpos.append hsorted hnew
    exact .got (Stream.takeCount s.config.entries_per_read batch) ⟨⟨lastId, rfl⟩, hconnected,
      fun h => hne (takeCount_eq_nil.mp h), n, rest, ⟨hgrown.begun, hgrown.le_last, hgrown.owed⟩,
      hreply.trans hrest.symm⟩

/-- Entries are appended outside the gap. -/
theorem Upright.append (hs : Upright s) {db : ℕ} {batch : List Entry} {t : Stream}
    (hgap : NotInGap s (.append db batch)) (h : s.append db batch = some t) : Upright t := by
  unfold Stream.append at h
  dsimp only at h
  split at h
  · next hbatch =>
    obtain ⟨hne, hnew, hsorted⟩ := hbatch
    obtain rfl := Option.some.inj h
    have hclient (store : Store) : (s.setStore db store).serve db .client = s.setStore db store :=
      serve_idle (Or.inl hs.quiet.blocked)
    rw [hclient]
    by_cases hown : db = s.config.db
    · subst hown
      exact hs.append_own hne hnew rfl (hgap rfl)
    · exact hs.append_other hown _
  · simp at h

end Appends

/-! ## Runs -/

/-- Every step outside the gap keeps the reader upright. -/
theorem Upright.step {s t : Stream} (hs : Upright s) {a : Action} (hup : StaysUp a)
    (hgap : NotInGap s a) (h : step s a = some t) : Upright t := by
  cases a with
  | doConnect role failed =>
    cases role with
    | client =>
      obtain ⟨-, rfl⟩ := of_guarded h
      exact hs.doConnect_client failed
    | read_client => exact False.elim hup
  | connected role =>
    obtain ⟨⟨-, -, hconnected⟩, rfl⟩ := of_guarded h
    cases role with
    | client => exact hs.connected_client
    | read_client => exact hs.connected_read (by simpa using hconnected)
  | connectFailed role =>
    cases role with
    | client =>
      obtain ⟨-, rfl⟩ := of_guarded h
      exact hs.connectFailed_client
    | read_client => exact False.elim hup
  | disconnected role =>
    cases role with
    | client =>
      obtain ⟨-, rfl⟩ := of_guarded h
      exact hs.reset_client rfl
    | read_client => exact False.elim hup
  | execute role fails =>
    cases role with
    | client => exact hs.execute_client h
    | read_client =>
      obtain rfl : fails = false := hup
      exact hs.execute_read h
  | executeOrphan i => exact hs.executeOrphan h
  | timeout role =>
    cases role with
    | client => exact absurd (hs.timeout_client.symm.trans h) (by simp)
    | read_client => exact hs.timeout_read h
  | append db batch => exact hs.append hgap h
  | receive role =>
    cases role with
    | client => exact hs.receive_client h
    | read_client => exact hs.receive_read h

/-- A new worker has not opened its connection yet. -/
theorem upright_new {config : StreamConfig} (htop : config.start_from = .top) (dbs : ℕ → Store) :
    Upright (.new config dbs) :=
  ⟨htop, rfl, quiet_new rfl, .opening rfl rfl rfl rfl⟩

/-- A reply with entries is emitted. -/
theorem Upright.delivers_got {s : Stream} (hs : Upright s) {batch : List Entry}
    (h : s.reader.Got batch) : ∃ t, s.receive .read_client = some t ∧ Upright t ∧ t.due = s.due ∧
      s.emitted.length < t.emitted.length := by
  obtain ⟨t, ht, hupright, hemitted, hdue⟩ := hs.receive_got h
  refine ⟨t, ht, hupright, hdue, ?_⟩
  rw [hemitted, List.length_append]
  exact Nat.lt_add_of_pos_right (List.length_pos_iff.mpr h.nonempty)

/-- The next `XREAD` gets a reply with entries, which is emitted. -/
theorem Upright.delivers_next {s : Stream} (hs : Upright s) {n : EntryId}
    (hsession : s.read_client.session = ⟨s.config.db, [.XREAD (.id n)], none, []⟩)
    (hconnected : s.read_client.connected = true) (hlastId : s.lastId = .id n)
    (hpos : Position s.reader n) (howed : s.emitted ≠ s.due) :
    ∃ t, run Redis.step s [.execute .read_client false, .receive .read_client] = some t ∧
      Upright t ∧ t.due = s.due ∧ s.emitted.length < t.emitted.length := by
  obtain ⟨u, hu, hupright, hemitted, hdue, hreply⟩ :=
    hs.execute_next hsession hconnected hlastId hpos
  have hsome : Stream.behind s.entries n ≠ [] := by
    intro hnone
    have hall : s.emitted ++ Stream.behind s.entries n = s.due := hpos.owed
    rw [hnone, List.append_nil] at hall
    exact howed hall
  obtain ⟨batch, hbatch⟩ := hreply hsome
  obtain ⟨t, ht, hupright', hdue', hlt⟩ := hupright.delivers_got hbatch
  refine ⟨t, ?_, hupright', hdue'.trans hdue, hemitted ▸ hlt⟩
  simp only [run, Redis.step, hu, ht, Option.bind_some]

/-- Some of what remains to be emitted is emitted. -/
theorem Upright.delivers_some {s : Stream} (hs : Upright s) (howed : s.emitted ≠ s.due) :
    ∃ actions, (∀ a ∈ actions, a.delivers) ∧ ∃ t, run Redis.step s actions = some t ∧ Upright t ∧
      t.due = s.due ∧ s.emitted.length < t.emitted.length := by
  have hnothing {P : Prop} (hemitted : s.emitted = []) (hdue : s.due = []) : P :=
    absurd (hemitted.trans hdue.symm) howed
  cases hs.reading with
  | opening _ _ hfirst hemitted => exact hnothing hemitted (congrArg (dueOf s.entries) hfirst)
  | selecting _ _ hfirst hemitted => exact hnothing hemitted (congrArg (dueOf s.entries) hfirst)
  | atTop _ _ _ hemitted _ hdue => exact hnothing hemitted hdue
  | waits _ n _ _ _ _ hpos hnone =>
    have hall := hpos.owed
    rw [hnone, List.append_nil] at hall
    exact absurd hall howed
  | got batch hbatch =>
    obtain ⟨t, ht, hupright, hdue, hlt⟩ := hs.delivers_got hbatch
    refine ⟨[.receive .read_client], by simp [Action.delivers], t, ?_, hupright, hdue, hlt⟩
    simp only [run, Redis.step, ht, Option.bind_some]
  | next n hasks hconnected hlastId hpos =>
    rcases hasks with hsession | hsession
    · obtain ⟨t, ht, hrest⟩ := hs.delivers_next hsession hconnected hlastId hpos howed
      exact ⟨_, by simp [Action.delivers], t, ht, hrest⟩
    · have hagain := hs.receive_again hlastId hsession
      obtain ⟨t, ht, hupright, hdue, hlt⟩ := (hs.receive_read hagain).delivers_next rfl hconnected
        hlastId ⟨hpos.begun, hpos.le_last, hpos.owed⟩ howed
      refine ⟨[.receive .read_client, .execute .read_client false, .receive .read_client],
        by simp [Action.delivers], t, ?_, hupright, hdue, hlt⟩
      rw [run, Redis.step, hagain]
      exact ht

/-- The reads under way bring what remains to be emitted. -/
theorem Upright.delivers {s : Stream} (hs : Upright s) : Delivers s := by
  refine ⟨hs.reading.emitted_prefix, ?_⟩
  obtain ⟨k, hk⟩ : ∃ k, s.due.length ≤ s.emitted.length + k :=
    ⟨_, Nat.le_add_left _ _⟩
  induction k generalizing s with
  | zero =>
    have hprefix : s.emitted <+: s.due := hs.reading.emitted_prefix
    exact ⟨[], by simp, s, rfl, hprefix.eq_of_length_le hk⟩
  | succ k ih =>
    by_cases hall : s.emitted = s.due
    · exact ⟨[], by simp, s, rfl, hall⟩
    · obtain ⟨first, hfirst, t, ht, hupright, hdue, hlt⟩ := hs.delivers_some hall
      obtain ⟨rest, hrest, u, hu, hemitted⟩ := ih hupright (by rw [hdue]; omega)
      refine ⟨first ++ rest, ?_, u, ?_, ?_⟩
      · intro a ha
        rcases List.mem_append.mp ha with ha | ha
        · exact hfirst a ha
        · exact hrest a ha
      · rw [run_append, ht]
        exact hu
      · exact hemitted.trans hdue

/-- In every run of a worker that starts at the top and stays connected, in which no entry is
appended in the gap, every entry that is due is emitted once and in order. -/
theorem delivers_of_along {config : StreamConfig} (htop : config.start_from = .top)
    (dbs : ℕ → Store) {actions : List Action} (hup : ∀ a ∈ actions, StaysUp a)
    (hgap : Along step NotInGap (.new config dbs) actions) {done : List Action}
    (hdone : done <+: actions) {s : Stream} (hrun : run step (.new config dbs) done = some s) :
    Delivers s :=
  (run_invariant (fun hs hgood hstep => hs.step hgood.1 hgood.2 hstep) (upright_new htop dbs)
    (hgap.and_forall hup) hdone hrun).delivers

/-- The reading client is connected, and its first `XREAD` waits for entries. -/
def firstXREAD : List Action :=
  [.connected .read_client, .execute .read_client false, .receive .read_client,
    .execute .read_client false]

/-- An entry that is appended while the `XREAD` waits is emitted. -/
theorem delivers_waiting : ∃ s, run step (.new ⟨0, .top, 1000⟩ emptyDbs)
    (firstXREAD ++ [.append 0 [⟨1, []⟩]]) = some s ∧ Delivers s := by
  obtain ⟨s, hrun⟩ : ∃ s, run step (.new ⟨0, .top, 1000⟩ emptyDbs)
      (firstXREAD ++ [.append 0 [⟨1, []⟩]]) = some s := ⟨_, rfl⟩
  refine ⟨s, hrun, ?_⟩
  exact delivers_of_along rfl emptyDbs (by decide) (by decide) (List.prefix_refl _) hrun

/-- The `XREAD` times out, and an entry is appended before the next one is executed: that one waits
for later entries only. -/
def missedEntry : List Action :=
  firstXREAD ++ [.timeout .read_client, .receive .read_client, .append 0 [⟨1, []⟩],
    .execute .read_client false]

/-- An entry that is appended between a timeout and the next read is never emitted. -/
theorem not_delivers_missed : ¬ ((∀ a ∈ missedEntry, StaysUp a) →
    ∀ s, run step (.new ⟨0, .top, 1000⟩ emptyDbs) missedEntry = some s → Delivers s) := by
  intro h
  obtain ⟨-, actions, hdelivers, t, ht, hemitted⟩ := h (by decide) _ rfl
  cases actions with
  | nil =>
    cases ht
    exact absurd hemitted (by decide)
  | cons a rest =>
    -- The `XREAD` waits and no reply is on its way.
    have hnone : (none : Option Stream) = some t := by
      rcases hdelivers a List.mem_cons_self with rfl | rfl
      · exact ht
      · exact ht
    simp at hnone

end Radapter.Redis
