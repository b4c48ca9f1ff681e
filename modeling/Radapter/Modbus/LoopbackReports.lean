import Radapter.Modbus.Loopback

/-!
# Where the values of a master come from

However long requests and replies are under way, whatever is lost and whatever the slave and other
writes do in the meantime: a value that a master reports was the value of its register on the
server, all its words at one moment.
-/

namespace Radapter.Modbus

open Library

section Attributed

variable {server : ReadingServer} {p : Plant} {m : ℕ} {slave : Slave} {s t : Linked server}

/-- A value that a register of the master has had on the server. -/
def Linked.Had (p : Plant) (m : ℕ) (s : Linked server) (k : Bytes) (v : Scalar) : Prop :=
  ∃ st ∈ s.past, ∃ read ∈ (p.masters m).reads, ∃ reg ∈ read.regs,
    reg.key = k ∧ v = server.holds st read.unit.registerType reg

/-- What is under way, what the master knows and what it has reported come from the server. -/
structure Attributed (p : Plant) (m : ℕ) (s : Linked server) : Prop where
  present : s.slave.server ∈ s.past
  requests : ∀ read, .read read ∈ s.requests → read ∈ (p.masters m).reads
  replies : ∀ x ∈ s.replies, x.1 ∈ (p.masters m).reads ∧
    ∃ st ∈ s.past, server.answer st x.1.unit = some x.2
  known : KeepsValues .invalid (fun e : Bytes × Scalar => s.Had p m e.1 e.2) s.currentState
  reported : ∀ k v, (k, v) ∈ s.reported → ∃ u, v = .leaf u ∧ s.Had p m k u

/-- What was once so stays so. -/
theorem Linked.Had.mono {k : Bytes} {v : Scalar} (h : s.Had p m k v) (hpast : s.past ⊆ t.past) :
    t.Had p m k v := by
  obtain ⟨st, hst, hread⟩ := h
  exact ⟨st, hpast hst, hread⟩

/-- The server moves on. -/
theorem Attributed.advance (hs : Attributed p m s) (u : Slaving server.toQModbusServer) :
    Attributed p m { s with slave := u, past := s.past ++ [u.server] } where
  present := List.mem_append_right _ (List.mem_singleton.mpr rfl)
  requests := hs.requests
  replies := by
    intro x hx
    obtain ⟨hread, st, hst, hanswer⟩ := hs.replies x hx
    exact ⟨hread, st, List.mem_append_left _ hst, hanswer⟩
  known := fun k => (hs.known k).imp_right (fun h => h.mono (List.subset_append_left _ _))
  reported := by
    intro k v hkv
    obtain ⟨u, rfl, hhad⟩ := hs.reported k v hkv
    exact ⟨u, rfl, hhad.mono (List.subset_append_left _ _)⟩

/-- A request is taken off the link. -/
theorem Attributed.drop (hs : Attributed p m s) (i : ℕ) :
    Attributed p m { s with requests := s.requests.eraseIdx i } where
  present := hs.present
  requests := fun read hread => hs.requests read (List.mem_of_mem_eraseIdx hread)
  replies := hs.replies
  known := hs.known
  reported := hs.reported

/-- A request is added. -/
theorem Attributed.push (hs : Attributed p m s) {request : Query}
    (hrequest : ∀ read, request = .read read → read ∈ (p.masters m).reads)
    (accepted : List QModbusDataUnit) :
    Attributed p m { s with accepted, requests := s.requests ++ [request] } where
  present := hs.present
  requests := by
    intro read hread
    rcases List.mem_append.mp hread with hread | hread
    · exact hs.requests read hread
    · exact hrequest read (List.mem_singleton.mp hread).symm
  replies := hs.replies
  known := hs.known
  reported := hs.reported

/-- A reply is parsed: its values are those of the server when it replied. -/
theorem Attributed.receive (hs : Attributed p m s)
    (hplain : ∀ read ∈ (p.masters m).reads, ∀ reg ∈ read.regs, reg.Plain)
    (hsound : ∀ read ∈ (p.masters m).reads, read.Sound) {read : MergedRead}
    {resp : QModbusDataUnit} (hread : read ∈ (p.masters m).reads) {st : server.State}
    (hst : st ∈ s.past) (hanswer : server.answer st read.unit = some resp) {memory : Words}
    (h : s.receive p read resp memory = some t) : Attributed p m t := by
  obtain ⟨data, hloop⟩ := pollLoop_eq p.qt resp read.typed
    { data := memory, currentState := s.currentState }
  rw [Linked.receive, hloop] at h
  obtain rfl := Option.some.inj h
  have hvalues : ∀ e ∈ readings resp memory read.regs, s.Had p m e.1 e.2 := by
    rw [readings_of_answer hanswer (hplain read hread) (hsound read hread)]
    intro e he
    obtain ⟨reg, hreg, rfl⟩ := List.mem_map.mp he
    exact ⟨st, hst, read, hread, reg, hreg, rfl, rfl⟩
  refine ⟨hs.present, hs.requests, hs.replies, hs.known.foldl hvalues, ?_⟩
  intro k v hkv
  rcases List.mem_append.mp hkv with hkv | hkv
  · exact hs.reported k v hkv
  · obtain ⟨e, he, hpair⟩ := List.mem_map.mp hkv
    cases hpair
    exact ⟨e.2, rfl, hvalues e ((changes_sublist _ _).subset he)⟩

/-- Every step keeps to values that the server has had. -/
theorem Attributed.step (hs : Attributed p m s)
    (hplain : ∀ read ∈ (p.masters m).reads, ∀ reg ∈ read.regs, reg.Plain)
    (hsound : ∀ read ∈ (p.masters m).reads, read.Sound) {a : LinkAction}
    (h : s.step p m slave a = some t) : Attributed p m t := by
  cases a with
  | poll i =>
    obtain ⟨read, hread, rfl⟩ := Option.map_eq_some_iff.mp h
    have hone : ∀ read', Query.read read = .read read' → read' ∈ (p.masters m).reads := by
      intro read' hsame
      cases hsame
      exact List.mem_of_getElem? hread
    exact hs.push hone s.accepted
  | entry k v valid =>
    simp only [Linked.step] at h
    split at h
    · obtain rfl := Option.some.inj h
      exact hs
    · next unit _ =>
      obtain rfl := Option.some.inj h
      exact hs.push (by simp) (s.accepted ++ [unit])
  | again unit =>
    obtain ⟨-, rfl⟩ := of_guarded h
    exact hs.push (by simp) s.accepted
  | serve i =>
    obtain ⟨request, hrequest, h⟩ := Option.bind_eq_some_iff.mp h
    have hdrop := hs.drop i
    cases request with
    | read read =>
      simp only [Linked.serve] at h
      split at h
      · obtain rfl := Option.some.inj h
        exact hdrop
      · next resp hanswer =>
        obtain rfl := Option.some.inj h
        refine { hdrop with replies := fun x hx => ?_ }
        rcases List.mem_append.mp hx with hx | hx
        · exact hs.replies x hx
        · rw [List.mem_singleton.mp hx]
          exact ⟨hs.requests read (List.mem_of_getElem? hrequest), s.slave.server, hs.present,
            hanswer⟩
    | write unit =>
      obtain ⟨⟨u, diff⟩, -, h⟩ := Option.bind_eq_some_iff.mp h
      obtain rfl := Option.some.inj h
      exact hdrop.advance u
  | lost i =>
    obtain rfl := Option.some.inj h
    exact hs.drop i
  | receive i memory =>
    obtain ⟨⟨read, resp⟩, hx, h⟩ := Option.bind_eq_some_iff.mp h
    obtain ⟨hread, st, hst, hanswer⟩ := hs.replies _ (List.mem_of_getElem? hx)
    have hdrop : Attributed p m { s with replies := s.replies.eraseIdx i } :=
      { hs with replies := fun x hx => hs.replies x (List.mem_of_mem_eraseIdx hx) }
    exact hdrop.receive hplain hsound hread hst hanswer h
  | silence i =>
    obtain rfl := Option.some.inj h
    exact { hs with replies := fun x hx => hs.replies x (List.mem_of_mem_eraseIdx hx) }
  | set k v =>
    obtain rfl := Option.some.inj h
    exact hs.advance _

end Attributed

end Radapter.Modbus
