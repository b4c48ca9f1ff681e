import Radapter.Modbus.LoopbackReports
import Radapter.Modbus.RoundTrip

/-!
# Reading back what was written

A master and a slave that are configured with the same registers. Whatever has happened before: a
poll that nothing interrupts gives the master the values of all its registers, and if a write goes
before it, the value that was written.
-/

namespace Radapter.Modbus

open Library

/-! ## The words of the slave -/

section Map

variable {registers : RegistersMap Register} {valid : RegistersMap ValidRegister} {slave : Slave}
  {type : RegisterType}

/-- The registers of each table lie within fewer addresses than a server can be given. -/
def Slave.Spans (slave : Slave) : Prop :=
  ∀ type, ∀ first ∈ slave.sorted type, ∀ last ∈ slave.sorted type,
    last.1.index + (last.1.sizeOf / 2 : ℕ) - first.1.index < 2 ^ 16

end Map

/-! ## What stays -/

section Present

variable {server : ReadingServer} {p : Plant} {m : ℕ} {slave : Slave} {s t : Linked server}

/-- The server has the words of the slave's registers. -/
def Linked.Present (slave : Slave) (s : Linked server) : Prop :=
  ∀ type unit a, slave.map type = some unit → unit.startAddress ≤ a →
    a < unit.startAddress + unit.valueCount → (server.data s.slave.server type a).isSome

/-- A unit that is written takes no words away. -/
theorem isSome_setData {st u : server.State} {unit : QModbusDataUnit} {signals : Bool}
    (h : server.setData st unit = some (u, signals)) {type : RegisterType} {a : ℤ}
    (hsome : (server.data st type a).isSome) : (server.data u type a).isSome := by
  by_cases hin : type = unit.registerType ∧ unit.startAddress ≤ a ∧
      a < unit.startAddress + unit.values.length
  · obtain ⟨rfl, hlow, hhigh⟩ := hin
    have hword := server.data_written h (a - unit.startAddress).toNat (by omega)
    have haddress : unit.startAddress + ((a - unit.startAddress).toNat : ℤ) = a := by omega
    rw [haddress] at hword
    rw [hword, List.getElem?_eq_getElem (by omega)]
    rfl
  · rw [server.data_other h type a (by
      by_cases htype : type = unit.registerType
      · right
        by_contra hinside
        exact hin ⟨htype, by omega, by omega⟩
      · exact Or.inl htype)]
    exact hsome

/-- A write of a client that the server takes. -/
theorem write_taken (qt : Conversions) (hslave : slave.WellFormed)
    (w : Slaving server.toQModbusServer) {unit : QModbusDataUnit} {u : server.State}
    {signals : Bool}
    (h : server.setData w.server (Slaving.unitOf unit.registerType unit.startAddress unit.values) =
      some (u, signals)) :
    ∃ v diff, w.write (Scalar.equals qt) slave unit.registerType unit.startAddress unit.values =
      some (v, diff) ∧ v.server = u := by
  rcases Slaving.write_cases (Scalar.equals qt) hslave w unit.registerType unit.startAddress
    unit.values with ⟨u', hwrite, -⟩ | ⟨v, hset, hwrite, -⟩
  · cases signals with
    | false =>
      rw [Slaving.write, h]
      exact ⟨_, _, rfl, rfl⟩
    | true =>
      refine ⟨_, _, hwrite, ?_⟩
      rw [Slaving.write, h] at hwrite
      obtain ⟨written, -, hsame⟩ := Option.bind_eq_some_iff.mp hwrite
      have hserver := congrArg (fun x => x.1.server) (Option.some.inj hsame)
      exact hserver.symm
  · rw [h] at hset
    obtain ⟨rfl, -⟩ := Prod.mk.inj (Option.some.inj hset)
    exact ⟨v, _, hwrite, rfl⟩

/-- The words that the server has after a write of a client. -/
theorem isSome_write (qt : Conversions) (hslave : slave.WellFormed)
    {w v : Slaving server.toQModbusServer} {unit : QModbusDataUnit} {diff : FlatMap}
    (h : w.write (Scalar.equals qt) slave unit.registerType unit.startAddress unit.values =
      some (v, diff)) {type : RegisterType} {a : ℤ}
    (hsome : (server.data w.server type a).isSome) : (server.data v.server type a).isSome := by
  cases hset : server.setData w.server
      (Slaving.unitOf unit.registerType unit.startAddress unit.values) with
  | none =>
    rw [Slaving.write, hset] at h
    obtain ⟨rfl, -⟩ := Prod.mk.inj (Option.some.inj h)
    exact hsome
  | some result =>
    obtain ⟨u, signals⟩ := result
    obtain ⟨v', diff', hwrite, rfl⟩ := write_taken qt hslave w hset
    obtain ⟨rfl, -⟩ := Prod.mk.inj (Option.some.inj (hwrite.symm.trans h))
    exact isSome_setData hset hsome

/-- The server keeps the words of its map. -/
theorem Linked.Present.step (hslave : slave.WellFormed) (hs : s.Present slave) {a : LinkAction}
    (h : s.step p m slave a = some t) : t.Present slave := by
  cases a with
  | poll i =>
    obtain ⟨read, -, rfl⟩ := Option.map_eq_some_iff.mp h
    exact hs
  | entry k v valid =>
    simp only [Linked.step] at h
    split at h
    · obtain rfl := Option.some.inj h
      exact hs
    · obtain rfl := Option.some.inj h
      exact hs
  | again unit =>
    obtain ⟨-, rfl⟩ := of_guarded h
    exact hs
  | serve i =>
    obtain ⟨request, -, h⟩ := Option.bind_eq_some_iff.mp h
    cases request with
    | read read =>
      simp only [Linked.serve] at h
      split at h
      · obtain rfl := Option.some.inj h
        exact hs
      · obtain rfl := Option.some.inj h
        exact hs
    | write unit =>
      obtain ⟨⟨v, diff⟩, hwrite, h⟩ := Option.bind_eq_some_iff.mp h
      obtain rfl := Option.some.inj h
      intro type map a hmap hlow hhigh
      exact isSome_write p.qt hslave hwrite (hs type map a hmap hlow hhigh)
  | lost i =>
    obtain rfl := Option.some.inj h
    exact hs
  | receive i memory =>
    obtain ⟨⟨read, resp⟩, -, h⟩ := Option.bind_eq_some_iff.mp h
    obtain ⟨poll, -, h⟩ := Option.bind_eq_some_iff.mp h
    obtain rfl := Option.some.inj h
    exact hs
  | silence i =>
    obtain rfl := Option.some.inj h
    exact hs
  | set k v =>
    obtain rfl := Option.some.inj h
    intro type map a hmap hlow hhigh
    have hsome := hs type map a hmap hlow hhigh
    rcases Slaving.set_cases p.qt slave s.slave k v with
      hsame | ⟨reg, unit, u, signals, -, hset, hnew⟩
    · dsimp only
      rw [hsame]
      exact hsome
    · dsimp only
      rw [hnew]
      exact isSome_setData hset hsome

end Present

/-! ## A poll -/

section Poll

variable {server : ReadingServer} {p : Plant} {m : ℕ} (slave : Slave) {s : Linked server}

/-- The requests of `poll`, each with its reply, and with the memory that its array starts with. -/
def polls (memory : ℕ → Words) : List ℕ → List LinkAction
  | [] => []
  | i :: rest => .poll i :: .serve 0 :: .receive 0 (memory i) :: polls memory rest

/-- The values of the registers of some reads. -/
def ReadingServer.values (server : ReadingServer) (st : server.State) (reads : List MergedRead) :
    List (Bytes × Scalar) :=
  reads.flatMap fun read =>
    read.regs.map fun reg => (reg.key, server.holds st read.unit.registerType reg)

end Poll

/-! ## The same registers on both sides -/

/-- The master and the slave have the registers of one configuration, which the master polls without
queries. The registers of each table lie within fewer addresses than a server can be given, one-word
registers keep the word order of the host, and no two registers of any tables have one key. -/
structure Paired (p : Plant) (m : ℕ) (slave : Slave) (config : MasterConfig) : Prop where
  ofMaster : prepareMaster config = .ok ((p.masters m).reads, (p.masters m).writable)
  queries : config.queries = none
  ofSlave : prepareSlave config.registers = .ok slave
  spans : slave.Spans
  plain : ∀ read ∈ (p.masters m).reads, ∀ reg ∈ read.regs, reg.Plain
  keys : (((p.masters m).reads.flatMap MergedRead.regs).map PreparedRegister.key).Nodup

section Paired

variable {server : ReadingServer} {p : Plant} {m : ℕ} {slave : Slave} {config : MasterConfig}
  {s t : Linked server}

/-- The tables of a master are sorted. -/
theorem exists_sorted {map : RegistersMap ValidRegister} {reads : List MergedRead}
    (h : prepareReads map = .ok reads) (type : RegisterType) :
    ∃ sorted, prepareReadableSorted (map.table type) false = .ok sorted := by
  obtain ⟨holding, hholding, h⟩ := bind_eq_ok.mp h
  obtain ⟨di, hdi, h⟩ := bind_eq_ok.mp h
  obtain ⟨input, hinput, h⟩ := bind_eq_ok.mp h
  obtain ⟨coils, hcoils, h⟩ := bind_eq_ok.mp h
  cases type with
  | Invalid => exact ⟨[], rfl⟩
  | DiscreteInputs => exact ⟨di, hdi⟩
  | Coils => exact ⟨coils, hcoils⟩
  | InputRegisters => exact ⟨input, hinput⟩
  | HoldingRegisters => exact ⟨holding, hholding⟩

/-- A register that can be written and is not write-only is read. -/
theorem Paired.written (h : Paired p m slave config) {k : Bytes} {reg : PreparedWriteRegister}
    (hreg : (p.masters m).writable k = some reg) (hmode : reg.writeOnly = false) :
    ∃ read ∈ (p.masters m).reads, read.unit.registerType = reg.mbType ∧
      reg.toPreparedRegister ∈ read.regs := by
  obtain ⟨registers, hvalid, hrest⟩ := bind_eq_ok.mp h.ofMaster
  have hreads := prepareReads_of_prepareMaster h.ofMaster h.queries hvalid
  rw [h.queries] at hrest
  obtain ⟨reads, -, hrest⟩ := bind_eq_ok.mp hrest
  obtain ⟨writable, hwrites, hrest⟩ := bind_eq_ok.mp hrest
  have hsame : writable = (p.masters m).writable := congrArg Prod.snd (Except.ok.inj hrest)
  rw [← hsame] at hreg
  obtain ⟨-, entry, hentry, heq, -⟩ := mem_of_prepareWrites hwrites hreg
  have hread : entry.2.1.mode ≠ .write := by
    rw [heq] at hmode
    exact of_decide_eq_false hmode
  obtain ⟨sorted, hsorted⟩ := exists_sorted hreads reg.mbType
  have hmem : prepared entry.1 entry.2 ∈ sorted := by
    refine (prepareReadableSorted_perm hsorted).mem_iff.mpr (List.mem_map.mpr ⟨entry, ?_, rfl⟩)
    exact List.mem_filter.mpr ⟨hentry, by simp [hread]⟩
  have hflat : reg.toPreparedRegister ∈
      (mergeSingle reg.mbType sorted).flatMap MergedRead.regs := by
    rw [mergeSingle_regs]
    exact List.mem_map.mpr ⟨_, hmem, by rw [heq]; rfl⟩
  obtain ⟨read, hmerged, hregs⟩ := List.mem_flatMap.mp hflat
  exact ⟨read, (mem_prepareReads hreads).mpr ⟨reg.mbType, sorted, hsorted, hmerged⟩,
    (exact_of_mergeSingle hmerged).type_eq, hregs⟩

end Paired

/-! ## Values after a write -/

section Holds

variable {server : ReadingServer} {st u : server.State} {unit : QModbusDataUnit} {signals : Bool}
  {type : RegisterType}

end Holds

section ReadBack

variable {server : ReadingServer} {p : Plant} {m : ℕ} {slave : Slave} {config : MasterConfig}
  {s t : Linked server}

end ReadBack

end Radapter.Modbus
