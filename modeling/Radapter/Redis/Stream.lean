import Radapter.Unflatten

/-!
# Reading a Redis stream

A stream worker has two clients, each with a connection of its own. The one that reads sends one
`XREAD` after the other; the other one keeps the ID of the last entry in the database. Replies
come in the order of the commands, and the server executes the commands of one connection in that
order. A command on a connection that is not there fails at once; when a connection goes down, all
commands without a reply get a null reply.

A step of the system is one event: something that happens to a connection, a command that the
server executes, a reply that arrives, a block timeout, or entries that someone appends.
-/

namespace Radapter.Redis

/-- The ID of an entry, as a number in the order of the IDs. `0-0` is the number 0. -/
abbrev EntryId := ℕ

/-- The texts that `lastId` can have: empty, `$` or an ID. -/
inductive LastId where
  | empty
  | dollar
  | id (n : EntryId)
  deriving DecidableEq, Repr

/-- An entry of a stream: its ID, and the names and values of its fields. -/
structure Entry where
  id : EntryId
  fields : List (QString × QString)
  deriving DecidableEq, Repr

/-- The message made from the fields of an entry. -/
def Entry.message (e : Entry) : QVariant :=
  Unflatten .invalid (e.fields.map (fun field => (toStdString field.1, .leaf (.string field.2))))

/-- `StreamStart`. -/
inductive StreamStart where
  | persistent_id
  | top
  | start
  deriving DecidableEq, Repr

/-- The fields of `StreamConfig` that reading depends on. -/
structure StreamConfig where
  db : ℕ
  start_from : StreamStart
  entries_per_read : ℕ

/-- The commands of a reading worker. A `SET` of the last ID has the ID with it. -/
inductive Command where
  | SELECT
  | XREAD (lastId : LastId)
  | GET
  | SET (lastId : LastId)
  deriving DecidableEq, Repr

/-- Replies. An error stands for error replies and for null replies alike. -/
inductive Reply where
  | OK
  | nil
  | entries (batch : List Entry)
  | value (lastId : LastId)
  | error
  deriving DecidableEq, Repr

/-- A database of the server: the entries of the stream with ascending IDs, and the saved ID. -/
structure Store where
  stream : List Entry
  ascending : stream.Pairwise (fun e e' => e.id < e'.id)
  saved : Option LastId

/-- What is under way on a connection: the selected database, the commands that the server has not
executed, the ID that the first of them waits for entries behind, and the replies that have not
arrived. -/
structure Session where
  db : ℕ
  sent : List Command
  blocked : Option EntryId
  replies : List (Command × Reply)

/-- A new connection uses database 0. -/
def Session.new : Session := ⟨0, [], none, []⟩

/-- The commands without a reply so far, in order. -/
def Session.pending (session : Session) : List Command :=
  session.replies.map Prod.fst ++ session.sent

/-- One more command. -/
def Session.send (session : Session) (cmd : Command) : Session :=
  { session with sent := session.sent ++ [cmd] }

/-- Nothing is pending on a new connection. -/
@[simp] theorem Session.pending_new : Session.new.pending = [] := rfl

/-- A command that is sent is the last one pending. -/
@[simp] theorem Session.pending_send (session : Session) (cmd : Command) :
    (session.send cmd).pending = session.pending ++ [cmd] := by
  simp [Session.pending, Session.send]

/-- `Client`. `ctx` says whether there is a context, `failed` whether it had an error from the
beginning, and `connected` whether its connection is established. -/
structure Client where
  ctx : Bool
  failed : Bool
  connected : Bool
  ok : Bool
  reconPending : Bool
  session : Session

/-- The two clients of the worker. -/
inductive Role where
  | client
  | read_client
  deriving DecidableEq, Repr

/-- The worker with its clients, the messages that it emitted, and the server. The sessions of
connections that went down may still have commands to execute. The last field has no counterpart in
the program: it is the last ID of the stream when the first `XREAD` was executed. -/
structure Stream where
  config : StreamConfig
  lastId : LastId
  client : Client
  read_client : Client
  emitted : List Entry
  dbs : ℕ → Store
  orphans : List Session
  firstRead : Option EntryId

namespace Stream

/-- The client with a role. -/
def conn (s : Stream) : Role → Client
  | .client => s.client
  | .read_client => s.read_client

/-- Replaces the client with a role. -/
def setConn (s : Stream) (role : Role) (c : Client) : Stream :=
  match role with
  | .client => { s with client := c }
  | .read_client => { s with read_client := c }

/-- The client without the reading role. -/
@[simp] theorem conn_client (s : Stream) : s.conn .client = s.client := rfl

/-- The client that reads. -/
@[simp] theorem conn_read_client (s : Stream) : s.conn .read_client = s.read_client := rfl

/-- To replace the one client leaves the other. -/
@[simp] theorem setConn_client (s : Stream) (c : Client) :
    s.setConn .client c = { s with client := c } := rfl

/-- To replace the client that reads leaves the other. -/
@[simp] theorem setConn_read_client (s : Stream) (c : Client) :
    s.setConn .read_client c = { s with read_client := c } := rfl

/-- `Client::Execute`: without a context the command is not sent. -/
def Execute (s : Stream) (role : Role) (cmd : Command) : Stream :=
  s.setConn role { s.conn role with session := (s.conn role).session.send cmd }

/-! ## The callbacks of the worker -/

/-- `nextRead`. Without a context its callback only logs the error. -/
def nextRead (s : Stream) : Stream :=
  if s.read_client.ctx then s.Execute .read_client (.XREAD s.lastId) else s

/-- `saveLastId`. -/
def saveLastId (s : Stream) : Stream :=
  if s.client.ctx then s.Execute .client (.SET s.lastId) else s

/-- The callback of `loadIdAndRead`. -/
def gotLastId (s : Stream) (res : Reply) : Stream :=
  let lastId :=
    match res with
    | .error => s.lastId
    | .value lastId => lastId
    | _ => .empty
  nextRead { s with lastId := if lastId = .empty then .id 0 else lastId }

/-- `loadIdAndRead`. Without a context its callback gets an error at once. -/
def loadIdAndRead (s : Stream) : Stream :=
  if s.client.ctx then s.Execute .client .GET else s.gotLastId .error

/-- One round of the loop in `parseReply`. -/
def receiveEntry (s : Stream) (e : Entry) : Stream :=
  { s with lastId := .id e.id, emitted := s.emitted ++ [e] }

/-- `parseReply`: a reply that is no list is logged or, for a timeout, ignored. -/
def parseReply (s : Stream) (resp : Reply) : Stream :=
  match resp with
  | .entries batch => saveLastId (batch.foldl receiveEntry s)
  | _ => s

/-- The callback of `nextRead`. -/
def gotEntries (s : Stream) (resp : Reply) : Stream :=
  match resp with
  | .error => s
  | resp => nextRead (s.parseReply resp)

/-- The slot for `ConnectedChanged(true)` of the client that reads. -/
def onConnected (s : Stream) : Stream :=
  match s.config.start_from with
  | .persistent_id => loadIdAndRead s
  | .start => nextRead { s with lastId := .id 0 }
  | .top => nextRead { s with lastId := .dollar }

/-- `ReconnectLater`: the timer runs. -/
def reconnectLater (s : Stream) (role : Role) : Stream :=
  s.setConn role { s.conn role with reconPending := true }

/-- `dbCallback`. -/
def gotDb (s : Stream) (role : Role) (reply : Reply) : Stream :=
  match reply with
  | .OK =>
      let s := s.setConn role { s.conn role with ok := true }
      match role with
      | .client => s
      | .read_client => s.onConnected
  | _ => s.reconnectLater role

/-- The callback of a command. That of `SET` only logs errors. -/
def callback (s : Stream) (role : Role) (cmd : Command) (reply : Reply) : Stream :=
  match cmd with
  | .SELECT => s.gotDb role reply
  | .XREAD _ => s.gotEntries reply
  | .GET => s.gotLastId reply
  | .SET _ => s

/-! ## The connections -/

/-- `redisAsyncFree`: the commands without a reply get a null reply. What was written to the
connection may still be executed. -/
def free (s : Stream) (role : Role) : Stream :=
  let session := (s.conn role).session
  let s := session.pending.foldl (fun s cmd => s.callback role cmd .error) s
  { s with orphans :=
      if (s.conn role).connected then s.orphans ++ [{ session with replies := [] }]
      else s.orphans }

/-- `doConnect`, when the timer fires. The disconnect callback runs when the old context was
connected. -/
def doConnect (s : Stream) (role : Role) (failed : Bool) : Stream :=
  let old := s.conn role
  let s := if old.ctx then s.free role else s
  s.setConn role ⟨true, failed, false, old.ok && !old.connected, failed, .new⟩

/-- `connectCallback` without an error. -/
def connected (s : Stream) (role : Role) : Stream :=
  (s.setConn role { s.conn role with connected := true }).Execute role .SELECT

/-- `connectCallback` with an error: the context is given up, and hiredis frees it. -/
def connectFailed (s : Stream) (role : Role) : Stream :=
  let s := s.setConn role { s.conn role with ctx := false, reconPending := true }
  let s := s.free role
  s.setConn role { s.conn role with session := .new }

/-- The connection goes down: hiredis frees the context, then `disconnectCallback` runs. -/
def disconnected (s : Stream) (role : Role) : Stream :=
  let s := s.free role
  s.setConn role ⟨false, false, false, false, true, .new⟩

/-! ## The server -/

/-- The last ID of a stream. -/
def lastOf (entries : List Entry) : EntryId := (entries.getLast?.map Entry.id).getD 0

/-- The entries behind an ID. -/
def behind (entries : List Entry) (id : EntryId) : List Entry :=
  entries.filter (fun e => id < e.id)

/-- `COUNT`: at most so many entries, or all of them for 0. -/
def takeCount (count : ℕ) (entries : List Entry) : List Entry :=
  if count = 0 then entries else entries.take count

/-- Writes a database. -/
def setStore (s : Stream) (db : ℕ) (store : Store) : Stream :=
  { s with dbs := fun d => if d = db then store else s.dbs d }

/-- The first execution of an `XREAD` is noted. -/
def noteRead (s : Stream) (db : ℕ) : Stream :=
  { s with firstRead := some (s.firstRead.getD (lastOf (s.dbs db).stream)) }

/-- The server executes the first command of a session: the session and its databases afterwards.
An `XREAD` without entries to give stays where it is and waits. -/
def executeHead (s : Stream) (session : Session) (cmd : Command) (rest : List Command)
    (fails : Bool) : Session × Stream :=
  let answer (reply : Reply) : Session :=
    { session with sent := rest, replies := session.replies ++ [(cmd, reply)] }
  if fails then (answer .error, s)
  else
    let store := s.dbs session.db
    match cmd with
    | .SELECT => ({ answer .OK with db := s.config.db }, s)
    | .GET => (answer (match store.saved with | none => .nil | some lastId => .value lastId), s)
    | .SET lastId => (answer .OK, s.setStore session.db { store with saved := some lastId })
    | .XREAD .empty => (answer .error, s)
    | .XREAD .dollar =>
        ({ session with blocked := some (lastOf store.stream) }, s.noteRead session.db)
    | .XREAD (.id n) =>
        match takeCount s.config.entries_per_read (behind store.stream n) with
        | [] => ({ session with blocked := some n }, s.noteRead session.db)
        | e :: batch => (answer (.entries (e :: batch)), s.noteRead session.db)

/-- The next command of a client is executed. -/
def execute (s : Stream) (role : Role) (fails : Bool) : Option Stream :=
  let c := s.conn role
  match c.session.sent, c.session.blocked with
  | cmd :: rest, none =>
      if c.connected then
        let (session, s) := s.executeHead c.session cmd rest fails
        some (s.setConn role { c with session })
      else none
  | _, _ => none

/-- A command of a connection that went down is executed; nobody gets the reply, and an `XREAD` has
no effect. -/
def executeOrphan (s : Stream) (i : ℕ) : Option Stream :=
  match s.orphans[i]? with
  | none => none
  | some session =>
      match session.sent with
      | [] => none
      | .XREAD _ :: rest =>
          some { s with orphans := s.orphans.set i { session with sent := rest } }
      | cmd :: rest =>
          let (session, s) := s.executeHead session cmd rest false
          some { s with orphans := s.orphans.set i { session with replies := [] } }

/-- A waiting command gets its reply. -/
def unblock (session : Session) (reply : Reply) : Session :=
  match session.sent with
  | [] => session
  | cmd :: rest => { session with
      sent := rest, blocked := none, replies := session.replies ++ [(cmd, reply)] }

/-- The block timeout of a waiting `XREAD`. -/
def timeout (s : Stream) (role : Role) : Option Stream :=
  let c := s.conn role
  match c.session.blocked with
  | none => none
  | some _ => some (s.setConn role { c with session := unblock c.session .nil })

/-- A client that waits for entries of a database gets those behind its ID. -/
def serve (s : Stream) (db : ℕ) (role : Role) : Stream :=
  let c := s.conn role
  match c.session.blocked with
  | none => s
  | some id =>
      let batch := takeCount s.config.entries_per_read (behind (s.dbs db).stream id)
      if c.session.db = db then
        s.setConn role { c with session := unblock c.session (.entries batch) }
      else s

/-- Someone appends entries, with IDs above those of the stream; clients that wait for them are
served before anything else is executed. -/
def append (s : Stream) (db : ℕ) (batch : List Entry) : Option Stream :=
  let store := s.dbs db
  if h : batch ≠ [] ∧ (∀ e ∈ batch, 0 < e.id) ∧
      (store.stream ++ batch).Pairwise (fun e e' => e.id < e'.id) then
    let s := s.setStore db { store with stream := store.stream ++ batch, ascending := h.2.2 }
    some ((s.serve db .client).serve db .read_client)
  else none

/-- A reply arrives. -/
def receive (s : Stream) (role : Role) : Option Stream :=
  let c := s.conn role
  match c.session.replies with
  | [] => none
  | (cmd, reply) :: rest =>
      some ((s.setConn role { c with session := { c.session with replies := rest } }).callback
        role cmd reply)

end Stream

/-- The events. -/
inductive Action where
  | doConnect (role : Role) (failed : Bool)
  | connected (role : Role)
  | connectFailed (role : Role)
  | disconnected (role : Role)
  | execute (role : Role) (fails : Bool)
  | executeOrphan (i : ℕ)
  | timeout (role : Role)
  | append (db : ℕ) (batch : List Entry)
  | receive (role : Role)
  deriving DecidableEq, Repr

/-- One event, where it can happen. -/
def step (s : Stream) : Action → Option Stream
  | .doConnect role failed =>
      if (s.conn role).reconPending then some (s.doConnect role failed) else none
  | .connected role =>
      if (s.conn role).ctx ∧ ¬ (s.conn role).failed ∧ ¬ (s.conn role).connected then
        some (s.connected role)
      else none
  | .connectFailed role =>
      if (s.conn role).ctx ∧ ¬ (s.conn role).failed ∧ ¬ (s.conn role).connected then
        some (s.connectFailed role)
      else none
  | .disconnected role =>
      if (s.conn role).ctx ∧ (s.conn role).connected then some (s.disconnected role) else none
  | .execute role fails => s.execute role fails
  | .executeOrphan i => s.executeOrphan i
  | .timeout role => s.timeout role
  | .append db batch => s.append db batch
  | .receive role => s.receive role

/-- A client after the first call of `doConnect`. -/
def Client.new : Client := ⟨true, false, false, false, false, .new⟩

/-- A new worker on a server with these databases. -/
def Stream.new (config : StreamConfig) (dbs : ℕ → Store) : Stream :=
  ⟨config, .empty, .new, .new, [], dbs, [], none⟩

end Radapter.Redis
