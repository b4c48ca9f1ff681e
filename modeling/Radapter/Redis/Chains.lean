import Radapter.Library.Runs
import Radapter.Redis.Stream

/-!
# Chains of reads

Every reply to an `XREAD` sends the next one, so a chain of reads goes on by itself. Chains are
started when the client that reads is connected, at once or by the reply to a `GET`, and end with
an error.

The file counts the reads under way. There is one of them as long as no chain is started beside
another one, and none ends while the connection stays up.
-/

namespace Radapter.Redis

open Library

/-- The command is an `XREAD`. -/
def Command.isRead : Command → Bool
  | .XREAD _ => true
  | _ => false

/-- The number of reads without a reply. -/
def Stream.outstanding (s : Stream) : ℕ :=
  s.read_client.session.pending.countP Command.isRead

/-- The number of requests for the saved ID without a reply. -/
def Stream.gets (s : Stream) : ℕ := s.client.session.pending.count .GET

/-- While the client that reads is connected and the saved ID is not waited for, one `XREAD` is
outstanding. -/
def OneReader (s : Stream) : Prop :=
  s.read_client.ok = true → s.gets = 0 → s.outstanding = 1

/-- No `XREAD` of a connected client is answered with an error. When the client that reads becomes
connected, it has no `XREAD` outstanding, and no request for the saved ID is under way. -/
def KeepsReader (s : Stream) : Action → Prop
  | .receive .read_client => ∀ reply ∈ s.read_client.session.replies.head?,
      (reply.1.isRead = true → reply.2 = .error → s.read_client.ok = false) ∧
        (reply.1 = .SELECT → reply.2 = .OK → s.gets = 0 ∧ s.outstanding = 0)
  | _ => True

instance (s : Stream) : (a : Action) → Decidable (KeepsReader s a)
  | .receive .read_client => inferInstanceAs (Decidable (∀ reply ∈ _, _ ∧ _))
  | .receive .client => isTrue trivial
  | .doConnect _ _ => isTrue trivial
  | .connected _ => isTrue trivial
  | .connectFailed _ => isTrue trivial
  | .disconnected _ => isTrue trivial
  | .execute _ _ => isTrue trivial
  | .executeOrphan _ => isTrue trivial
  | .timeout _ => isTrue trivial
  | .append _ _ => isTrue trivial

/-- What holds of the clients in every state. -/
structure Wired (s : Stream) : Prop where
  connected_ctx : s.read_client.connected = true → s.read_client.ctx = true
  replies_connected : s.read_client.session.replies ≠ [] → s.read_client.connected = true
  blocked_connected : s.read_client.session.blocked ≠ none → s.read_client.connected = true
  ok_connected : s.read_client.ok = true → s.read_client.connected = true
  reads : ∀ cmd ∈ s.read_client.session.pending, cmd = .SELECT ∨ cmd.isRead = true
  others : ∀ cmd ∈ s.client.session.pending, cmd.isRead = false

/-- A connected client has one chain of reads, or waits for the saved ID to start it. -/
structure Linked (s : Stream) : Prop extends Wired s where
  idle : s.client.ctx = false → s.client.session.pending = []
  one : s.read_client.ok = true → s.outstanding + s.gets = 1

/-- Where chains are linked, one read is outstanding. -/
theorem Linked.oneReader {s : Stream} (hs : Linked s) : OneReader s := by
  intro hok hgets
  have hone := hs.one hok
  omega

/-! ## Sending commands -/

section Commands

variable {s : Stream}

/-- What is wired depends on the clients only. -/
theorem Wired.congr (hs : Wired s) {t : Stream} (hclient : t.client = s.client)
    (hread : t.read_client = s.read_client) : Wired t := by
  obtain ⟨hctx, hreplies, hblocked, hok, hreads, hothers⟩ := hs
  rw [← hread] at hctx hreplies hblocked hok hreads
  rw [← hclient] at hothers
  exact ⟨hctx, hreplies, hblocked, hok, hreads, hothers⟩

/-- Another command on the client that does not read. -/
theorem Wired.send_client (hs : Wired s) {cmd : Command} (hcmd : cmd.isRead = false) :
    Wired (s.Execute .client cmd) := by
  refine ⟨hs.connected_ctx, hs.replies_connected, hs.blocked_connected, hs.ok_connected, hs.reads,
    ?_⟩
  intro other hother
  simp only [Stream.Execute, Stream.setConn_client, Stream.conn_client, Session.pending_send,
    List.mem_append, List.mem_singleton] at hother
  rcases hother with hother | rfl
  · exact hs.others other hother
  · exact hcmd

/-- Another command on the client that reads. -/
theorem Wired.send_read (hs : Wired s) {cmd : Command} (hcmd : cmd = .SELECT ∨ cmd.isRead = true) :
    Wired (s.Execute .read_client cmd) := by
  refine ⟨hs.connected_ctx, hs.replies_connected, hs.blocked_connected, hs.ok_connected, ?_,
    hs.others⟩
  intro other hother
  simp only [Stream.Execute, Stream.setConn_read_client, Stream.conn_read_client,
    Session.pending_send, List.mem_append, List.mem_singleton] at hother
  rcases hother with hother | rfl
  · exact hs.reads other hother
  · exact hcmd

/-- Another read keeps the clients wired. -/
theorem Wired.nextRead (hs : Wired s) : Wired s.nextRead := by
  rw [Stream.nextRead]
  split
  · exact hs.send_read (Or.inr rfl)
  · exact hs

/-- A read that is sent is outstanding. -/
theorem outstanding_nextRead (hctx : s.read_client.ctx = true) :
    s.nextRead.outstanding = s.outstanding + 1 := by
  rw [Stream.nextRead, if_pos hctx]
  simp [Stream.Execute, Stream.outstanding, Command.isRead]

/-- It is sent by the client that reads. -/
@[simp] theorem nextRead_client (s : Stream) : s.nextRead.client = s.client := by
  rw [Stream.nextRead]
  split
  · rfl
  · rfl

/-- It is no request for the saved ID. -/
@[simp] theorem gets_nextRead (s : Stream) : s.nextRead.gets = s.gets := by
  rw [Stream.gets, nextRead_client, Stream.gets]

/-- It does not change the connection. -/
@[simp] theorem nextRead_ok (s : Stream) : s.nextRead.read_client.ok = s.read_client.ok := by
  rw [Stream.nextRead]
  split
  · rfl
  · rfl

/-- The callback of a `GET` starts a chain, whatever the reply is. -/
theorem gotLastId_eq (s : Stream) (res : Reply) :
    ∃ lastId, s.gotLastId res = Stream.nextRead { s with lastId } := ⟨_, rfl⟩

/-- Saving the last ID is no read. -/
theorem Wired.saveLastId (hs : Wired s) : Wired s.saveLastId := by
  rw [Stream.saveLastId]
  split
  · exact hs.send_client rfl
  · exact hs

/-- The ID is saved by the other client. -/
@[simp] theorem saveLastId_read_client (s : Stream) :
    s.saveLastId.read_client = s.read_client := by
  rw [Stream.saveLastId]
  split
  · rfl
  · rfl

/-- To save it is not to ask for it. -/
@[simp] theorem gets_saveLastId (s : Stream) : s.saveLastId.gets = s.gets := by
  rw [Stream.saveLastId]
  split
  · simp [Stream.Execute, Stream.gets]
  · rfl

/-- The loop over the entries does not touch the clients. -/
theorem foldl_receiveEntry (batch : List Entry) (s : Stream) :
    (batch.foldl Stream.receiveEntry s).client = s.client ∧
      (batch.foldl Stream.receiveEntry s).read_client = s.read_client := by
  induction batch generalizing s with
  | nil => exact ⟨rfl, rfl⟩
  | cons e batch ih => exact ih (s.receiveEntry e)

/-- Without a context nothing is saved. -/
theorem saveLastId_idle (hidle : s.client.ctx = false → s.client.session.pending = []) :
    s.saveLastId.client.ctx = false → s.saveLastId.client.session.pending = [] := by
  rw [Stream.saveLastId]
  split
  · next hctx =>
    intro h
    exact absurd (hctx.symm.trans h) (by simp)
  · exact hidle

/-- What `parseReply` does to the clients. -/
theorem parseReply_spec (hs : Wired s)
    (hidle : s.client.ctx = false → s.client.session.pending = []) (resp : Reply) :
    Wired (s.parseReply resp) ∧ (s.parseReply resp).read_client = s.read_client ∧
      (s.parseReply resp).gets = s.gets ∧ ((s.parseReply resp).client.ctx = false →
        (s.parseReply resp).client.session.pending = []) := by
  cases resp with
  | entries batch =>
    obtain ⟨hclient, hread⟩ := foldl_receiveEntry batch s
    refine ⟨(hs.congr hclient hread).saveLastId, ?_, ?_, ?_⟩
    · rw [Stream.parseReply, saveLastId_read_client, hread]
    · rw [Stream.parseReply, gets_saveLastId, Stream.gets, hclient, Stream.gets]
    · apply saveLastId_idle
      rw [hclient]
      exact hidle
  | OK => exact ⟨hs, rfl, rfl, hidle⟩
  | nil => exact ⟨hs, rfl, rfl, hidle⟩
  | value lastId => exact ⟨hs, rfl, rfl, hidle⟩
  | error => exact ⟨hs, rfl, rfl, hidle⟩

end Commands

/-! ## Callbacks -/

section Callbacks

variable {s : Stream}

/-- What the callbacks of the client that does not read do to the links. -/
theorem callback_client (hs : Wired s) {cmd : Command} (hcmd : cmd.isRead = false)
    (reply : Reply) :
    Wired (s.callback .client cmd reply) ∧
      (s.callback .client cmd reply).client.session = s.client.session ∧
      (s.callback .client cmd reply).client.ctx = s.client.ctx ∧
      (s.callback .client cmd reply).read_client.ok = s.read_client.ok ∧
      (s.read_client.ok = true → (s.callback .client cmd reply).outstanding =
        s.outstanding + if cmd = .GET then 1 else 0) := by
  cases cmd with
  | XREAD lastId => simp [Command.isRead] at hcmd
  | SET lastId => exact ⟨hs, rfl, rfl, rfl, fun _ => rfl⟩
  | SELECT =>
    have hclient (c : Client) (hsession : c.session = s.client.session) :
        Wired { s with client := c } := by
      refine ⟨hs.connected_ctx, hs.replies_connected, hs.blocked_connected, hs.ok_connected,
        hs.reads, ?_⟩
      intro cmd hcmd
      rw [hsession] at hcmd
      exact hs.others cmd hcmd
    simp only [Stream.callback, Stream.gotDb]
    cases reply with
    | OK => exact ⟨hclient _ rfl, rfl, rfl, rfl, fun _ => rfl⟩
    | nil => exact ⟨hclient _ rfl, rfl, rfl, rfl, fun _ => rfl⟩
    | entries batch => exact ⟨hclient _ rfl, rfl, rfl, rfl, fun _ => rfl⟩
    | value lastId => exact ⟨hclient _ rfl, rfl, rfl, rfl, fun _ => rfl⟩
    | error => exact ⟨hclient _ rfl, rfl, rfl, rfl, fun _ => rfl⟩
  | GET =>
    obtain ⟨lastId, hread⟩ := gotLastId_eq s reply
    have hwired : Wired { s with lastId } := hs.congr rfl rfl
    rw [Stream.callback, hread]
    refine ⟨hwired.nextRead, by rw [nextRead_client], by rw [nextRead_client],
      by rw [nextRead_ok], fun hok => ?_⟩
    have hctx := hs.connected_ctx (hs.ok_connected hok)
    rw [if_pos rfl]
    exact outstanding_nextRead (s := { s with lastId }) hctx

/-- Null replies to the commands of the client that does not read: each `GET` starts a chain. -/
theorem null_replies_client (hs : Wired s) {cmds : List Command}
    (hcmds : ∀ cmd ∈ cmds, cmd.isRead = false) :
    Wired (cmds.foldl (fun s cmd => s.callback .client cmd .error) s) ∧
      (cmds.foldl (fun s cmd => s.callback .client cmd .error) s).read_client.ok =
        s.read_client.ok ∧
      (s.read_client.ok = true →
        (cmds.foldl (fun s cmd => s.callback .client cmd .error) s).outstanding =
          s.outstanding + cmds.count .GET) := by
  induction cmds generalizing s with
  | nil => exact ⟨hs, rfl, fun _ => rfl⟩
  | cons cmd rest ih =>
    obtain ⟨hwired, -, -, hok, hcount⟩ := callback_client hs (hcmds cmd (by simp)) .error
    obtain ⟨hwired', hok', hcount'⟩ := ih hwired (fun c hc => hcmds c (List.mem_cons_of_mem _ hc))
    refine ⟨hwired', hok'.trans hok, fun h => ?_⟩
    have hlater := hcount' (hok.trans h)
    have hfirst := hcount h
    rw [List.foldl_cons, hlater, hfirst, List.count_cons]
    simp only [beq_iff_eq]
    omega

/-- Null replies to the commands of the client that reads start nothing. -/
theorem null_replies_read (hs : Wired s) {cmds : List Command}
    (hcmds : ∀ cmd ∈ cmds, cmd = .SELECT ∨ cmd.isRead = true) :
    let t := cmds.foldl (fun s cmd => s.callback .read_client cmd .error) s
    Wired t ∧ t.client = s.client ∧ t.read_client.ok = s.read_client.ok ∧
      t.read_client.connected = s.read_client.connected := by
  induction cmds generalizing s with
  | nil => exact ⟨hs, rfl, rfl, rfl⟩
  | cons cmd rest ih =>
    have hfirst : Wired (s.callback .read_client cmd .error) ∧
        (s.callback .read_client cmd .error).client = s.client ∧
        (s.callback .read_client cmd .error).read_client.ok = s.read_client.ok ∧
        (s.callback .read_client cmd .error).read_client.connected = s.read_client.connected := by
      rcases hcmds cmd (by simp) with rfl | hread
      · refine ⟨⟨hs.connected_ctx, hs.replies_connected, hs.blocked_connected, hs.ok_connected,
          hs.reads, hs.others⟩, rfl, rfl, rfl⟩
      · cases cmd with
        | XREAD lastId => exact ⟨hs, rfl, rfl, rfl⟩
        | SELECT => simp [Command.isRead] at hread
        | GET => simp [Command.isRead] at hread
        | SET lastId => simp [Command.isRead] at hread
    obtain ⟨hwired, hclient, hok, hconnected⟩ := hfirst
    obtain ⟨hwired', hclient', hok', hconnected'⟩ :=
      ih hwired (fun c hc => hcmds c (List.mem_cons_of_mem _ hc))
    exact ⟨hwired', hclient'.trans hclient, hok'.trans hok, hconnected'.trans hconnected⟩

end Callbacks

/-! ## Connections -/

section Connections

variable {s : Stream}

/-- When the connection of the client that does not read is given up, the requests for the saved ID
become chains. -/
theorem Wired.reset_client (hs : Wired s)
    (hone : s.read_client.ok = true → s.outstanding + s.gets = 1) {c : Client}
    (hc : c.session = .new) : Linked { s.free .client with client := c } := by
  obtain ⟨hwired, hok, hcount⟩ := null_replies_client hs hs.others
  refine ⟨⟨hwired.connected_ctx, hwired.replies_connected, hwired.blocked_connected,
    hwired.ok_connected, hwired.reads, ?_⟩, ?_, ?_⟩
  · intro cmd hcmd
    rw [hc] at hcmd
    simp at hcmd
  · intro _
    rw [hc]
    rfl
  · intro h
    have hold : s.read_client.ok = true := hok.symm.trans h
    have htotal := hone hold
    have hchains := hcount hold
    have hgets : Stream.gets { s.free .client with client := c } = 0 := by
      rw [Stream.gets, hc]
      rfl
    rw [hgets, Nat.add_zero, ← htotal]
    exact hchains

/-- When the connection of the client that reads is given up, it is not connected any more. -/
theorem Linked.reset_read (hs : Linked s) {c : Client} (hc : c.session = .new)
    (hok : c.ok = false) (hconnected : c.connected = false) :
    Linked { s.free .read_client with read_client := c } := by
  obtain ⟨hwired, hclient, -, -⟩ := null_replies_read hs.toWired hs.reads
  have hothers : (s.free .read_client).client = s.client := hclient
  refine ⟨⟨?_, ?_, ?_, ?_, ?_, ?_⟩, ?_, ?_⟩
  · simp [hconnected]
  · simp [hc, Session.new]
  · simp [hc, Session.new]
  · simp [hok]
  · simp [hc]
  · simpa only [hothers] using hs.others
  · simpa only [hothers] using hs.idle
  · simp [hok]

/-- Giving up the context of a client, before hiredis frees it. -/
theorem Linked.connectFailed (hs : Linked s) {role : Role}
    (hconnected : (s.conn role).connected = false) : Linked (s.connectFailed role) := by
  cases role with
  | client =>
    have hwired : Wired { s with client := { s.client with ctx := false, reconPending := true } } :=
      ⟨hs.connected_ctx, hs.replies_connected, hs.blocked_connected, hs.ok_connected, hs.reads,
        hs.others⟩
    exact hwired.reset_client hs.one rfl
  | read_client =>
    have hok : s.read_client.ok = false := by
      rw [← Bool.not_eq_true]
      exact fun h => Bool.false_ne_true (hconnected.symm.trans (hs.ok_connected h))
    have hlinked : Linked { s with
        read_client := { s.read_client with ctx := false, reconPending := true } } := by
      refine ⟨⟨?_, hs.replies_connected, hs.blocked_connected, hs.ok_connected, hs.reads,
        hs.others⟩, hs.idle, hs.one⟩
      intro h
      exact absurd (hconnected.symm.trans h) Bool.false_ne_true
    obtain ⟨-, -, hok', hconnected'⟩ := null_replies_read hlinked.toWired hlinked.reads
    exact hlinked.reset_read rfl (hok'.trans hok) (hconnected'.trans hconnected)

/-- The timer of a client. -/
theorem Linked.doConnect (hs : Linked s) (role : Role) (failed : Bool) :
    Linked (s.doConnect role failed) := by
  cases role with
  | client =>
    by_cases hctx : (s.conn .client).ctx = true
    · have hfree : s.doConnect .client failed = { s.free .client with client :=
          ⟨true, failed, false, s.client.ok && !s.client.connected, failed, .new⟩ } := by
        rw [Stream.doConnect, if_pos hctx]
        rfl
      rw [hfree]
      exact hs.toWired.reset_client hs.one rfl
    · have hfresh : s.doConnect .client failed = { s with client :=
          ⟨true, failed, false, s.client.ok && !s.client.connected, failed, .new⟩ } := by
        rw [Stream.doConnect, if_neg hctx]
        rfl
      have hidle := hs.idle (by simpa using hctx)
      rw [hfresh]
      refine ⟨⟨hs.connected_ctx, hs.replies_connected, hs.blocked_connected, hs.ok_connected,
        hs.reads, by simp⟩, by simp, ?_⟩
      intro hok
      have hone := hs.one hok
      rw [Stream.gets, hidle] at hone
      exact hone
  | read_client =>
    have hok : (s.read_client.ok && !s.read_client.connected) = false := by
      cases h : s.read_client.ok with
      | false => rfl
      | true => simp [hs.ok_connected h]
    by_cases hctx : (s.conn .read_client).ctx = true
    · have hfree : s.doConnect .read_client failed = { s.free .read_client with read_client :=
          ⟨true, failed, false, s.read_client.ok && !s.read_client.connected, failed, .new⟩ } := by
        rw [Stream.doConnect, if_pos hctx]
        rfl
      rw [hfree]
      exact hs.reset_read rfl hok rfl
    · have hfresh : s.doConnect .read_client failed = { s with read_client :=
          ⟨true, failed, false, s.read_client.ok && !s.read_client.connected, failed, .new⟩ } := by
        rw [Stream.doConnect, if_neg hctx]
        rfl
      rw [hfresh, hok]
      exact ⟨⟨by simp, by simp [Session.new], by simp [Session.new], by simp, by simp, hs.others⟩,
        hs.idle, by simp⟩

/-- A connection goes down. -/
theorem Linked.disconnected (hs : Linked s) (role : Role) : Linked (s.disconnected role) := by
  cases role with
  | client => exact hs.toWired.reset_client hs.one rfl
  | read_client => exact hs.reset_read rfl rfl rfl

/-- A connection is established. -/
theorem Linked.connected (hs : Linked s) {role : Role} (hctx : (s.conn role).ctx = true)
    (hconnected : (s.conn role).connected = false) : Linked (s.connected role) := by
  cases role with
  | client =>
    have hwired : Wired { s with client := { s.client with connected := true } } :=
      ⟨hs.connected_ctx, hs.replies_connected, hs.blocked_connected, hs.ok_connected, hs.reads,
        hs.others⟩
    refine ⟨hwired.send_client rfl, ?_, ?_⟩
    · intro h
      exact absurd (hctx.symm.trans h) (by simp)
    · intro hok
      have hone := hs.one hok
      simpa [Stream.connected, Stream.Execute, Stream.gets, Stream.outstanding] using hone
  | read_client =>
    have hwired : Wired { s with read_client := { s.read_client with connected := true } } :=
      ⟨fun _ => hctx, fun _ => rfl, fun _ => rfl, fun _ => rfl, hs.reads, hs.others⟩
    refine ⟨hwired.send_read (Or.inl rfl), hs.idle, ?_⟩
    intro hok
    exact absurd (hconnected.symm.trans (hs.ok_connected hok)) (by simp)

end Connections

/-! ## The server -/

section Server

variable {s : Stream}

/-- A command that is executed keeps its place among those without a reply. -/
theorem executeHead_spec (s : Stream) {session : Session} {cmd : Command} {rest : List Command}
    (hsent : session.sent = cmd :: rest) (fails : Bool) :
    (s.executeHead session cmd rest fails).1.pending = session.pending ∧
      (s.executeHead session cmd rest fails).2.client = s.client ∧
      (s.executeHead session cmd rest fails).2.read_client = s.read_client := by
  have hanswer (reply : Reply) :
      (session.replies ++ [(cmd, reply)]).map Prod.fst ++ rest = session.pending := by
    simp [Session.pending, hsent]
  unfold Stream.executeHead
  split
  · exact ⟨hanswer _, rfl, rfl⟩
  · cases cmd with
    | SELECT => exact ⟨hanswer _, rfl, rfl⟩
    | GET => exact ⟨hanswer _, rfl, rfl⟩
    | SET lastId => exact ⟨hanswer _, rfl, rfl⟩
    | XREAD lastId =>
      cases lastId with
      | empty => exact ⟨hanswer _, rfl, rfl⟩
      | dollar => exact ⟨rfl, rfl, rfl⟩
      | id n =>
        dsimp only
        split
        · exact ⟨rfl, rfl, rfl⟩
        · exact ⟨hanswer _, rfl, rfl⟩

/-- A command that gets its reply keeps its place. -/
theorem pending_unblock (session : Session) (reply : Reply) :
    (Stream.unblock session reply).pending = session.pending := by
  unfold Stream.unblock
  split
  · rfl
  · next hsent => simp [Session.pending, hsent]

/-- Only the commands without a reply matter of a session, and that nothing happens on it before it
is established. -/
theorem Linked.session (hs : Linked s) {role : Role} {session : Session}
    (hpending : session.pending = (s.conn role).session.pending)
    (hconnected : role = .read_client → (s.conn role).connected = true) :
    Linked (s.setConn role { s.conn role with session }) := by
  cases role with
  | client =>
    refine ⟨⟨hs.connected_ctx, hs.replies_connected, hs.blocked_connected, hs.ok_connected,
      hs.reads, ?_⟩, ?_, ?_⟩
    · simpa [hpending] using hs.others
    · simpa [hpending] using hs.idle
    · simpa [Stream.gets, Stream.outstanding, hpending] using hs.one
  | read_client =>
    refine ⟨⟨hs.connected_ctx, fun _ => hconnected rfl, fun _ => hconnected rfl, hs.ok_connected,
      ?_, hs.others⟩, hs.idle, ?_⟩
    · simpa [hpending] using hs.reads
    · simpa [Stream.gets, Stream.outstanding, hpending] using hs.one

/-- What is linked depends on the clients only. -/
theorem Linked.congr (hs : Linked s) {t : Stream} (hclient : t.client = s.client)
    (hread : t.read_client = s.read_client) : Linked t := by
  obtain ⟨hwired, hidle, hone⟩ := hs
  refine ⟨hwired.congr hclient hread, ?_, ?_⟩
  · rw [hclient]
    exact hidle
  · rw [Stream.outstanding, Stream.gets, hclient, hread]
    exact hone

/-- Systems with the same two clients have the same under each role. -/
theorem conn_congr {t : Stream} (hclient : t.client = s.client)
    (hread : t.read_client = s.read_client) (role : Role) : t.conn role = s.conn role := by
  cases role with
  | client => exact hclient
  | read_client => exact hread

/-- The server executes a command. -/
theorem Linked.execute (hs : Linked s) {role : Role} {fails : Bool} {t : Stream}
    (h : s.execute role fails = some t) : Linked t := by
  unfold Stream.execute at h
  dsimp only at h
  split at h
  · next cmd rest hsent hblocked =>
    split at h
    · next hconnected =>
      obtain rfl := Option.some.inj h
      obtain ⟨hpending, hclient, hread⟩ := executeHead_spec s hsent fails
      have hlinked := hs.congr hclient hread
      have hconn := conn_congr hclient hread role
      have hsession := hlinked.session (hconn.symm ▸ hpending)
        (fun _ => hconn.symm ▸ hconnected)
      rw [hconn] at hsession
      exact hsession
    · simp at h
  · simp at h

/-- A command of a connection that went down is executed. -/
theorem Linked.executeOrphan (hs : Linked s) {i : ℕ} {t : Stream}
    (h : s.executeOrphan i = some t) : Linked t := by
  unfold Stream.executeOrphan at h
  split at h
  · simp at h
  · next session =>
    split at h
    · simp at h
    · obtain rfl := Option.some.inj h
      exact hs.congr rfl rfl
    · next cmd rest _ hsent =>
      obtain rfl := Option.some.inj h
      obtain ⟨-, hclient, hread⟩ := executeHead_spec s hsent false
      exact hs.congr hclient hread

/-- A block timeout. -/
theorem Linked.timeout (hs : Linked s) {role : Role} {t : Stream}
    (h : s.timeout role = some t) : Linked t := by
  unfold Stream.timeout at h
  dsimp only at h
  split at h
  · simp at h
  · next id hblocked =>
    obtain rfl := Option.some.inj h
    apply hs.session (pending_unblock _ _)
    rintro rfl
    apply hs.blocked_connected
    simp only [Stream.conn_read_client] at hblocked
    simp [hblocked]

/-- A waiting client is served. -/
theorem Linked.serve (hs : Linked s) (db : ℕ) (role : Role) : Linked (s.serve db role) := by
  unfold Stream.serve
  dsimp only
  split
  · exact hs
  · next id hblocked =>
    split
    · apply hs.session (pending_unblock _ _)
      rintro rfl
      apply hs.blocked_connected
      simp only [Stream.conn_read_client] at hblocked
      simp [hblocked]
    · exact hs

/-- Entries are appended. -/
theorem Linked.append (hs : Linked s) {db : ℕ} {batch : List Entry} {t : Stream}
    (h : s.append db batch = some t) : Linked t := by
  unfold Stream.append at h
  dsimp only at h
  split at h
  · obtain rfl := Option.some.inj h
    have hstore (store : Store) : Linked (s.setStore db store) := hs.congr rfl rfl
    exact ((hstore _).serve db .client).serve db .read_client
  · simp at h

end Server

/-! ## Replies -/

section Replies

variable {s : Stream}

/-- A reply is taken from a connection. -/
theorem pending_of_replies {session : Session} {cmd : Command} {reply : Reply}
    {rest : List (Command × Reply)} (h : session.replies = (cmd, reply) :: rest) :
    session.pending = cmd :: { session with replies := rest }.pending := by
  simp [Session.pending, h]

/-- A reply arrives at the client that does not read. -/
theorem Linked.receive_client (hs : Linked s) {cmd : Command} {reply : Reply}
    {rest : List (Command × Reply)} (hreplies : s.client.session.replies = (cmd, reply) :: rest) :
    Linked (Stream.callback
      { s with client := { s.client with session := { s.client.session with replies := rest } } }
      .client cmd reply) := by
  have hpending := pending_of_replies hreplies
  have hctx : s.client.ctx = true := by
    rw [← Bool.not_eq_false]
    intro h
    simp [hs.idle h] at hpending
  have hcmd : cmd.isRead = false := hs.others cmd (by simp [hpending])
  have hwired : Wired { s with
      client := { s.client with session := { s.client.session with replies := rest } } } := by
    refine ⟨hs.connected_ctx, hs.replies_connected, hs.blocked_connected, hs.ok_connected, hs.reads,
      fun other hother => ?_⟩
    exact hs.others other (hpending ▸ List.mem_cons_of_mem cmd hother)
  obtain ⟨hwired', hsession, hctx', hok, hcount⟩ := callback_client hwired hcmd reply
  refine ⟨hwired', ?_, ?_⟩
  · intro h
    exact absurd (hctx.symm.trans (hctx'.symm.trans h)) (by simp)
  · intro h
    have hold : s.read_client.ok = true := hok.symm.trans h
    have hone := hs.one hold
    have hchains := hcount hold
    rw [Stream.gets, hpending, List.count_cons] at hone
    have hreads : Stream.outstanding { s with client :=
        { s.client with session := { s.client.session with replies := rest } } } =
        s.outstanding := rfl
    have hgets := congrArg (fun session => session.pending.count Command.GET) hsession
    simp only [beq_iff_eq] at hone
    rw [hchains, hreads]
    simp only [Stream.gets] at hgets ⊢
    omega

/-- A first read. -/
theorem Wired.start (hs : Wired s)
    (hidle : s.client.ctx = false → s.client.session.pending = [])
    (hctx : s.read_client.ctx = true) (hzero : s.outstanding + s.gets = 0) :
    Linked s.nextRead := by
  refine ⟨hs.nextRead, by rwa [nextRead_client], fun _ => ?_⟩
  rw [outstanding_nextRead hctx, gets_nextRead]
  omega

/-- The client that reads becomes connected. -/
theorem Wired.onConnected (hs : Wired s)
    (hidle : s.client.ctx = false → s.client.session.pending = [])
    (hctx : s.read_client.ctx = true) (hzero : s.outstanding + s.gets = 0) :
    Linked s.onConnected := by
  have hstart (lastId : LastId) : Linked (Stream.nextRead { s with lastId }) :=
    Wired.start (s := { s with lastId }) (hs.congr rfl rfl) hidle hctx hzero
  rw [Stream.onConnected]
  split
  · rw [Stream.loadIdAndRead]
    split
    · next hclient =>
      refine ⟨hs.send_client rfl, ?_, fun _ => ?_⟩
      · intro h
        exact absurd (hclient.symm.trans h) (by simp)
      · have hgets : (s.Execute .client .GET).gets = s.gets + 1 := by
          simp [Stream.Execute, Stream.gets]
        have hreads : (s.Execute .client .GET).outstanding = s.outstanding := rfl
        omega
    · exact hstart _
  · exact hstart _
  · exact hstart _

/-- The client that reads has taken a reply from its connection. -/
def Stream.taken (s : Stream) (rest : List (Command × Reply)) : Stream :=
  { s with read_client :=
    { s.read_client with session := { s.read_client.session with replies := rest } } }

/-- A reply is taken, and its read is no longer outstanding. -/
theorem Linked.taken (hs : Linked s) {cmd : Command} {reply : Reply}
    {rest : List (Command × Reply)}
    (hreplies : s.read_client.session.replies = (cmd, reply) :: rest) :
    Wired (s.taken rest) ∧
      s.outstanding = (s.taken rest).outstanding + if cmd.isRead = true then 1 else 0 := by
  have hpending := pending_of_replies hreplies
  have hconnected := hs.replies_connected (by simp [hreplies])
  refine ⟨⟨hs.connected_ctx, fun _ => hconnected, hs.blocked_connected, hs.ok_connected,
    fun other hother => ?_, hs.others⟩, ?_⟩
  · exact hs.reads other (hpending ▸ List.mem_cons_of_mem cmd hother)
  · rw [Stream.outstanding, hpending, List.countP_cons, Stream.outstanding, Stream.taken]

/-- The database is selected: the client is connected, unless there was an error. -/
theorem Linked.receive_select (hs : Linked s) {reply : Reply} {rest : List (Command × Reply)}
    (hreplies : s.read_client.session.replies = (.SELECT, reply) :: rest)
    (hselect : reply = .OK → s.gets = 0 ∧ s.outstanding = 0) :
    Linked ((s.taken rest).gotDb .read_client reply) := by
  have hconnected := hs.replies_connected (by simp [hreplies])
  obtain ⟨hwired, hcount⟩ := hs.taken hreplies
  simp only [Command.isRead, Bool.false_eq_true, if_false, Nat.add_zero] at hcount
  -- without the database the client only waits for its timer
  have hlater : Linked ((s.taken rest).reconnectLater .read_client) := by
    refine ⟨⟨hs.connected_ctx, fun _ => hconnected, hs.blocked_connected, hs.ok_connected,
      hwired.reads, hs.others⟩, hs.idle, fun hok => ?_⟩
    have hone := hs.one hok
    rw [hcount] at hone
    exact hone
  cases reply with
  | OK =>
    obtain ⟨hgets, hreads⟩ := hselect rfl
    have hok : Wired { s with read_client := { s.read_client with
        ok := true, session := { s.read_client.session with replies := rest } } } :=
      ⟨hs.connected_ctx, fun _ => hconnected, hs.blocked_connected, fun _ => hconnected,
        hwired.reads, hs.others⟩
    exact hok.onConnected hs.idle (hs.connected_ctx hconnected)
      (Nat.add_eq_zero_iff.mpr ⟨hcount.symm.trans hreads, hgets⟩)
  | nil => exact hlater
  | entries batch => exact hlater
  | value lastId => exact hlater
  | error => exact hlater

/-- A read is answered: the next one is sent, unless there was an error. -/
theorem Linked.receive_entries (hs : Linked s) {lastId : LastId} {reply : Reply}
    {rest : List (Command × Reply)}
    (hreplies : s.read_client.session.replies = (.XREAD lastId, reply) :: rest)
    (herror : reply = .error → s.read_client.ok = false) :
    Linked ((s.taken rest).gotEntries reply) := by
  have hctx := hs.connected_ctx (hs.replies_connected (by simp [hreplies]))
  obtain ⟨hwired, hcount⟩ := hs.taken hreplies
  simp only [Command.isRead, if_true] at hcount
  obtain ⟨hwired', hread', hgets', hidle'⟩ := parseReply_spec hwired hs.idle reply
  have hnext : Linked (Stream.nextRead ((s.taken rest).parseReply reply)) := by
    refine ⟨hwired'.nextRead, by rwa [nextRead_client], fun hok => ?_⟩
    rw [nextRead_ok, hread'] at hok
    have hone := hs.one hok
    rw [hcount] at hone
    rw [outstanding_nextRead (by rw [hread']; exact hctx), gets_nextRead, hgets',
      Stream.outstanding, hread']
    exact hone
  cases reply with
  | error =>
    refine ⟨hwired, hs.idle, fun hok => ?_⟩
    exact absurd ((herror rfl).symm.trans hok) (by simp)
  | OK => exact hnext
  | nil => exact hnext
  | entries batch => exact hnext
  | value lastId => exact hnext

/-- A reply arrives at the client that reads, which has sent only a `SELECT` and reads. -/
theorem Linked.receive_read (hs : Linked s) {cmd : Command} {reply : Reply}
    {rest : List (Command × Reply)}
    (hreplies : s.read_client.session.replies = (cmd, reply) :: rest)
    (hkeeps : KeepsReader s (.receive .read_client)) :
    Linked ((s.taken rest).callback .read_client cmd reply) := by
  obtain ⟨herror, hselect⟩ := hkeeps (cmd, reply) (by simp [hreplies])
  rcases hs.reads cmd (by simp [pending_of_replies hreplies]) with rfl | hread
  · exact hs.receive_select hreplies (hselect rfl)
  · cases cmd with
    | XREAD lastId => exact hs.receive_entries hreplies (herror rfl)
    | SELECT => simp [Command.isRead] at hread
    | GET => simp [Command.isRead] at hread
    | SET lastId => simp [Command.isRead] at hread

/-- A reply arrives. -/
theorem Linked.receive (hs : Linked s) {role : Role} {t : Stream}
    (hkeeps : KeepsReader s (.receive role)) (h : s.receive role = some t) : Linked t := by
  unfold Stream.receive at h
  dsimp only at h
  split at h
  · simp at h
  · next cmd reply rest hreplies =>
    obtain rfl := Option.some.inj h
    cases role with
    | client => exact hs.receive_client hreplies
    | read_client => exact hs.receive_read hreplies hkeeps

end Replies

/-! ## Runs -/

/-- Every step under the condition keeps one chain. -/
theorem Linked.step {s t : Stream} (hs : Linked s) {a : Action} (hkeeps : KeepsReader s a)
    (h : step s a = some t) : Linked t := by
  cases a with
  | doConnect role failed =>
    obtain ⟨-, rfl⟩ := of_guarded h
    exact hs.doConnect role failed
  | connected role =>
    obtain ⟨⟨hctx, -, hconnected⟩, rfl⟩ := of_guarded h
    exact hs.connected hctx (by simpa using hconnected)
  | connectFailed role =>
    obtain ⟨⟨-, -, hconnected⟩, rfl⟩ := of_guarded h
    exact hs.connectFailed (by simpa using hconnected)
  | disconnected role =>
    obtain ⟨-, rfl⟩ := of_guarded h
    exact hs.disconnected role
  | execute role fails => exact hs.execute h
  | executeOrphan i => exact hs.executeOrphan h
  | timeout role => exact hs.timeout h
  | append db batch => exact hs.append h
  | receive role => exact hs.receive hkeeps h

/-- A new worker has no chain yet. -/
theorem linked_new (config : StreamConfig) (dbs : ℕ → Store) : Linked (.new config dbs) := by
  refine ⟨⟨?_, ?_, ?_, ?_, ?_, ?_⟩, ?_, ?_⟩ <;> simp [Stream.new, Client.new, Session.new,
    Session.pending]

/-- In every run whose steps meet the condition, one `XREAD` is outstanding in every state in which
the client that reads is connected and the saved ID is not waited for. -/
theorem oneReader_of_along (config : StreamConfig) (dbs : ℕ → Store) {actions : List Action}
    (hkeeps : Along step KeepsReader (.new config dbs) actions) {done : List Action}
    (hdone : done <+: actions) {s : Stream} (hrun : run step (.new config dbs) done = some s) :
    OneReader s :=
  (run_invariant (fun hs hgood hstep => hs.step hgood hstep) (linked_new config dbs) hkeeps hdone
    hrun).oneReader

/-- A server without data. -/
def emptyDbs : ℕ → Store := fun _ => ⟨[], .nil, none⟩

/-- Both clients are connected, and the saved ID has been asked for. -/
def startUp : List Action :=
  [.connected .client, .connected .read_client, .execute .client false, .receive .client,
    .execute .read_client false, .receive .read_client, .execute .client false, .receive .client]

/-- After the reply to the `GET`, the first `XREAD` is outstanding. -/
theorem oneReader_startUp : ∃ s,
    run step (.new ⟨0, .persistent_id, 1000⟩ emptyDbs) startUp = some s ∧ OneReader s := by
  obtain ⟨s, hrun⟩ : ∃ s,
      run step (.new ⟨0, .persistent_id, 1000⟩ emptyDbs) startUp = some s := ⟨_, rfl⟩
  refine ⟨s, hrun, ?_⟩
  exact oneReader_of_along ⟨0, .persistent_id, 1000⟩ emptyDbs (by decide) (List.prefix_refl _) hrun

/-- The server answers the `XREAD` with an error: nothing reads any more. -/
theorem not_oneReader_error : ¬ ∀ s, run step (.new ⟨0, .persistent_id, 1000⟩ emptyDbs)
    (startUp ++ [.execute .read_client true, .receive .read_client]) = some s → OneReader s := by
  intro h
  exact absurd (h _ rfl rfl rfl) (by decide)

end Radapter.Redis
