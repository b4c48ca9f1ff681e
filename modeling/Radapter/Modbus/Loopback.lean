import Radapter.Modbus.Master
import Radapter.Modbus.Requests
import Radapter.Modbus.Rounds
import Radapter.Modbus.ServerMap
import Radapter.Modbus.SlaveReports

/-!
# A master and a slave

A `Master` polls the registers of a `Slave` and writes them. Its requests and the replies of the
server take their time on the link, may be lost, and are taken in any order here, which is more
than a device does; a write that was accepted may be sent again at any time. In the meantime the
slave sets its registers itself.

The server is Qt's, and so is what it replies to a read.
-/

namespace Radapter.Modbus

open Library

/-! ## Replies -/

/-- Whether the words of a type are bits. -/
def RegisterType.isBits : RegisterType → Bool
  | .Coils => true
  | .DiscreteInputs => true
  | _ => false

/-- The value of a reply for a word: a bit travels as no more than whether it is set. -/
def Carries (type : RegisterType) (word value : Word) : Prop :=
  if type.isBits then value = 0 ↔ word = 0 else value = word

/-- A server with what it replies to a read: the words, or an exception. It has the words of its
map, which it keeps, and takes a unit for words that it has. -/
structure ReadingServer extends QModbusServer where
  answer : State → QModbusDataUnit → Option QModbusDataUnit
  /-- A reply has the words of the server. -/
  answer_words : ∀ {s unit resp}, answer s unit = some resp →
    resp.startAddress = unit.startAddress ∧ ∀ i : ℕ, i < unit.valueCount →
      ∃ word, data s unit.registerType (unit.startAddress + i) = some word ∧
        Carries unit.registerType word (resp.value i)
  /-- There is no exception if the server has the words. -/
  answer_some : ∀ {s : State} {unit : QModbusDataUnit}, (∀ i : ℕ, i < unit.valueCount →
      (data s unit.registerType (unit.startAddress + i)).isSome) → (answer s unit).isSome
  /-- The server has the words of its map. -/
  data_map : ∀ {map : RegisterType → Option QModbusDataUnit} {type unit a},
    map type = some unit → unit.startAddress ≤ a → a < unit.startAddress + unit.valueCount →
      (data (setMap map) type a).isSome
  /-- A unit for words that the server has is not refused. -/
  setData_some : ∀ {s : State} {unit : QModbusDataUnit}, (∀ i : ℕ, i < unit.values.length →
      (data s unit.registerType (unit.startAddress + i)).isSome) → (setData s unit).isSome

/-- The value of a register on the server. -/
def ReadingServer.holds (server : ReadingServer) (s : server.State) (type : RegisterType)
    (reg : PreparedRegister) : Scalar :=
  decoded reg (reg.places ((server.data s type reg.index).getD 0)
    ((server.data s type (reg.index + 1)).getD 0))

/-- A one-word register keeps the word order of the host, or it would be decoded from the other
place of the array. -/
def PreparedRegister.Plain (reg : PreparedRegister) : Prop :=
  reg.sizeOf = 4 ∨ reg.packing.word = .little

/-- The words of the registers of a read are among those that it asks for, and bits are taken for
bits. -/
structure MergedRead.Sound (read : MergedRead) : Prop where
  within : ∀ reg ∈ read.regs, read.unit.startAddress ≤ reg.index ∧
    reg.index + (reg.sizeOf / 2 : ℕ) ≤ read.unit.startAddress + read.unit.valueCount
  bits : read.unit.registerType.isBits = true → ∀ reg ∈ read.regs, reg.type = .bit

/-! ## The link -/

/-- What is on its way from the master to the server. -/
inductive Query where
  | read (read : MergedRead)
  | write (unit : QModbusDataUnit)

/-- The state of the two workers and of what is between them. `past` has the states of the server so
far, the present one included. -/
structure Linked (server : ReadingServer) where
  slave : Slaving server.toQModbusServer
  past : List server.State
  accepted : List QModbusDataUnit := []
  requests : List Query := []
  replies : List (MergedRead × QModbusDataUnit) := []
  currentState : Bytes → Scalar := fun _ => .invalid
  reported : FlatMap := []

/-- What can happen: the master polls, takes an entry of a message or writes once more; the server
takes a request, which is lost otherwise; the master takes a reply, its array starting with
whatever `memory` was there, or that is lost; and the slave takes an entry of a message. -/
inductive LinkAction where
  | poll (i : ℕ)
  | entry (k : Bytes) (v : Scalar) (valid : Bool)
  | again (unit : QModbusDataUnit)
  | serve (i : ℕ)
  | lost (i : ℕ)
  | receive (i : ℕ) (memory : Words)
  | silence (i : ℕ)
  | set (k : Bytes) (v : Scalar)

/-- The state after the two constructors. -/
def Linked.start (slave : Slave) (server : ReadingServer) : Linked server where
  slave := slave.start server.toQModbusServer
  past := [(slave.start server.toQModbusServer).server]

section Steps

variable {server : ReadingServer} (p : Plant) (m : ℕ) (slave : Slave)

namespace Linked

/-- The server replies to a read, or the slave takes a write. -/
def serve (s : Linked server) : Query → Option (Linked server)
  | .read read =>
      match server.answer s.slave.server read.unit with
      | none => some s
      | some resp => some { s with replies := s.replies ++ [(read, resp)] }
  | .write unit => do
      let (t, _) ← s.slave.write (Scalar.equals p.qt) slave unit.registerType unit.startAddress
        unit.values
      return { s with slave := t, past := s.past ++ [t.server] }

/-- `parsePoll`, and the entries of the message that it sends. -/
def receive (s : Linked server) (read : MergedRead) (resp : QModbusDataUnit) (memory : Words) :
    Option (Linked server) := do
  let poll ← pollLoop p.qt resp read.regs { data := memory, currentState := s.currentState }
  return { s with currentState := poll.currentState, reported := s.reported ++ poll.diff }

/-- One step of the two workers and the link. -/
def step (s : Linked server) : LinkAction → Option (Linked server)
  | .poll i =>
      (p.masters m).reads[i]?.map fun read => { s with requests := s.requests ++ [.read read] }
  | .entry k v valid =>
      match p.accept m k v valid with
      | none => some s
      | some (_, unit) =>
          some { s with accepted := s.accepted ++ [unit], requests := s.requests ++ [.write unit] }
  | .again unit =>
      if unit ∈ s.accepted then some { s with requests := s.requests ++ [.write unit] } else none
  | .serve i => do
      let request ← s.requests[i]?
      { s with requests := s.requests.eraseIdx i }.serve p slave request
  | .lost i => some { s with requests := s.requests.eraseIdx i }
  | .receive i memory => do
      let (read, resp) ← s.replies[i]?
      { s with replies := s.replies.eraseIdx i }.receive p read resp memory
  | .silence i => some { s with replies := s.replies.eraseIdx i }
  | .set k v =>
      let t := s.slave.set p.qt slave k v
      some { s with slave := t, past := s.past ++ [t.server] }

end Linked

end Steps

/-! ## What a reply says -/

/-- Registers that follow one another lie between the first and as many words as they have. -/
theorem within_of_chain {regs : List PreparedRegister} (hchain : regs.IsChain
      (fun reg next : PreparedRegister => next.index = reg.index + (reg.sizeOf / 2 : ℕ)))
    {start : ℤ} (hstart : regs.head?.map PreparedRegister.index = some start)
    {reg : PreparedRegister} (hreg : reg ∈ regs) :
    start ≤ reg.index ∧ reg.index + (reg.sizeOf / 2 : ℕ) ≤
      start + ((regs.map (fun reg => reg.sizeOf / 2)).sum : ℕ) := by
  induction regs generalizing start with
  | nil => simp at hreg
  | cons first rest ih =>
    obtain rfl : first.index = start := by simpa using hstart
    rw [List.map_cons, List.sum_cons]
    rcases List.mem_cons.mp hreg with rfl | hreg
    · exact ⟨le_refl _, by omega⟩
    · cases rest with
      | nil => simp at hreg
      | cons next rest =>
        obtain ⟨hnext, hchain⟩ := List.isChain_cons_cons.mp hchain
        obtain ⟨hlow, hhigh⟩ := ih hchain rfl hreg
        exact ⟨by omega, by omega⟩

/-- The registers of an exact read lie in its unit. -/
theorem MergedRead.Exact.within {type : RegisterType} {read : MergedRead} (h : read.Exact type) :
    ∀ reg ∈ read.regs, read.unit.startAddress ≤ reg.index ∧
      reg.index + (reg.sizeOf / 2 : ℕ) ≤ read.unit.startAddress + read.unit.valueCount := by
  intro reg hreg
  rw [h.count_eq]
  exact within_of_chain h.contiguous h.start_eq hreg

section Replies

variable {server : ReadingServer} {s : server.State} {read : MergedRead} {resp : QModbusDataUnit}

/-- The words of a register in a reply. -/
theorem value_of_answer (h : server.answer s read.unit = some resp) {a : ℤ}
    (hlow : read.unit.startAddress ≤ a)
    (hhigh : a < read.unit.startAddress + read.unit.valueCount) :
    ∃ word, server.data s read.unit.registerType a = some word ∧
      Carries read.unit.registerType word (resp.value (a - resp.startAddress)) := by
  obtain ⟨hstart, hwords⟩ := server.answer_words h
  have hword := hwords (a - read.unit.startAddress).toNat (by omega)
  rw [hstart]
  have haddress : read.unit.startAddress + ((a - read.unit.startAddress).toNat : ℤ) = a := by omega
  have hindex : ((a - read.unit.startAddress).toNat : ℤ) = a - read.unit.startAddress := by omega
  rwa [haddress, hindex] at hword

/-- A bit decodes to whether its word is set. -/
theorem decoded_bit {reg : PreparedRegister} (hbit : reg.type = .bit)
    (hlittle : reg.packing.word = .little) (data : Words) :
    decoded reg data = .bool (data.1 != 0) := by
  simp [decoded, decodeRegister, hbit, swapWords, hlittle]

/-- A register decodes to its value on the server, whatever the array holds. -/
theorem decoded_of_answer (h : server.answer s read.unit = some resp) (hsound : read.Sound)
    {reg : PreparedRegister} (hreg : reg ∈ read.regs) (hplain : reg.Plain) (data : Words) :
    decoded reg (loadWords resp reg data) = server.holds s read.unit.registerType reg := by
  have hsize := sizeOf_eq_two_or_four reg
  obtain ⟨hlow, hhigh⟩ := hsound.within reg hreg
  obtain ⟨first, hfirst, hcarried⟩ := value_of_answer h hlow (by omega)
  by_cases hbits : read.unit.registerType.isBits = true
  · have hbit := hsound.bits hbits reg hreg
    have htwo : reg.sizeOf ≠ 4 := by
      rw [reg.sized, hbit]
      decide
    have hlittle := hplain.resolve_left htwo
    rw [Carries, if_pos hbits] at hcarried
    rw [ReadingServer.holds, decoded_bit hbit hlittle, decoded_bit hbit hlittle, hfirst]
    simp only [loadWords, PreparedRegister.places, Option.getD_some]
    rw [Scalar.bool.injEq, Bool.eq_iff_iff, bne_iff_ne, bne_iff_ne]
    exact not_congr hcarried
  · rw [Carries, if_neg hbits] at hcarried
    by_cases hfour : reg.sizeOf = 4
    · obtain ⟨second, hsecond, hlast⟩ :=
        value_of_answer h (a := reg.index + 1) (by omega) (by omega)
      rw [Carries, if_neg hbits] at hlast
      simp [ReadingServer.holds, loadWords, PreparedRegister.places, hfour, hfirst, hsecond,
        hcarried, hlast]
    · have hlittle := hplain.resolve_left hfour
      rw [ReadingServer.holds]
      apply decoded_congr hfour
      simp [loadWords, PreparedRegister.places, hfirst, hcarried, swapWords, hlittle]

/-- The values of a reply are those that the registers have on the server. -/
theorem readings_of_answer (h : server.answer s read.unit = some resp)
    (hplain : ∀ reg ∈ read.regs, reg.Plain) (hsound : read.Sound) (memory : Words) :
    readings resp memory read.regs =
      read.regs.map (fun reg => (reg.key, server.holds s read.unit.registerType reg)) := by
  have hall (regs : List PreparedRegister) (hsub : regs ⊆ read.regs) (data : Words) :
      readings resp data regs =
        regs.map (fun reg => (reg.key, server.holds s read.unit.registerType reg)) := by
    induction regs generalizing data with
    | nil => rfl
    | cons reg rest ih =>
      have hmem := hsub List.mem_cons_self
      rw [readings, List.map_cons, decoded_of_answer h hsound hmem (hplain reg hmem),
        ih (fun r hr => hsub (List.mem_cons_of_mem _ hr))]
  exact hall read.regs (List.Subset.refl _) memory

end Replies

end Radapter.Modbus
