import Radapter.Library.Changes
import Radapter.Library.Runs
import Radapter.Modbus.Prepare

/-!
# Slaves

A `Slave` keeps its registers on a `QModbusServer`, which remote clients write, and reports what
they change. It remembers the last value of every key: the decoded one that it reported, or the
value of a message as it was. The server is Qt's and stands here with what the slave relies on.

The slave ignores what the server signals during a write of its own (`applying`). A message that it
sends is the last thing it does for a write, so messages that come back run after it.
-/

namespace Radapter.Modbus

open Library

/-! ## The server -/

/-- The part of a `QModbusServer` that slaves use. `setData` gives nothing when the server refuses
the unit, and otherwise whether it signals `dataWritten`. -/
structure QModbusServer where
  State : Type
  setMap : (RegisterType → Option QModbusDataUnit) → State
  data : State → RegisterType → ℤ → Option Word
  setData : State → QModbusDataUnit → Option (State × Bool)
  /-- A unit that is not refused is written. -/
  data_written : ∀ {s unit t signals}, setData s unit = some (t, signals) →
    ∀ i : ℕ, i < unit.values.length →
      data t unit.registerType (unit.startAddress + i) = unit.values[i]?
  /-- Nothing else is. -/
  data_other : ∀ {s unit t signals}, setData s unit = some (t, signals) → ∀ type a,
    type ≠ unit.registerType ∨ a < unit.startAddress ∨ unit.startAddress + unit.values.length ≤ a →
      data t type a = data s type a
  /-- Every change is signalled. -/
  data_silent : ∀ {s unit t}, setData s unit = some (t, false) → ∀ type a,
    data t type a = data s type a

/-! ## The constructor -/

/-- What the constructor of a `Slave` prepares. -/
structure Slave where
  all : Bytes → Option PreparedWriteRegister
  sorted : RegisterType → List TypedRegister

/-- The part of the constructor that prepares the registers. -/
def prepareSlave (registers : RegistersMap Register) : Except Raised Slave := do
  let registers ← validateRegisters registers
  let all ← prepareWrites registers true
  let sortedHolding ← prepareReadableSorted registers.holding true
  let sortedCoils ← prepareReadableSorted registers.coils true
  let sortedDI ← prepareReadableSorted registers.di true
  let sortedInput ← prepareReadableSorted registers.input true
  return {
    all := all
    sorted := fun
      | .HoldingRegisters => sortedHolding
      | .Coils => sortedCoils
      | .DiscreteInputs => sortedDI
      | .InputRegisters => sortedInput
      | .Invalid => [] }

/-- The unit that `addRange` inserts for a table. -/
def Slave.map (slave : Slave) (type : RegisterType) : Option QModbusDataUnit := do
  let front ← (slave.sorted type).head?
  let back ← (slave.sorted type).getLast?
  let lo := front.1.index
  let hi := back.1.index + (back.1.sizeOf / 2 : ℕ)
  return { registerType := type, startAddress := lo, valueCount := ((hi - lo) % 2 ^ 16).toNat }

/-! ## Remote writes -/

/-- A range of addresses has a word of the register. -/
def PreparedRegister.Overlaps (reg : PreparedRegister) (address : ℤ) (size : ℕ) : Prop :=
  address < reg.index + (reg.sizeOf / 2 : ℕ) ∧ reg.index < address + size

instance (reg : PreparedRegister) (address : ℤ) (size : ℕ) :
    Decidable (reg.Overlaps address size) := inferInstanceAs (Decidable (_ ∧ _))

/-- The array `data` of a register: its second place stays zero if the register has one word. -/
def PreparedRegister.places (reg : PreparedRegister) (first second : Word) : Words :=
  (first, if reg.sizeOf = 4 then second else 0)

/-- The words of a register on the server, zero where it has none. -/
def QModbusServer.wordsOf (server : QModbusServer) (s : server.State) (type : RegisterType)
    (reg : PreparedRegister) : Words :=
  reg.places ((server.data s type (reg.index % 2 ^ 16)).getD 0)
    ((server.data s type ((reg.index + 1) % 2 ^ 16)).getD 0)

/-- What the loop of `onDataWritten` works on. -/
structure Written where
  currentState : Bytes → Scalar
  diff : FlatMap := []

/-- The loop of `onDataWritten`; `none` when the program aborts. -/
def writtenLoop (eq : Scalar → Scalar → Bool) (words : PreparedRegister → Words) (address : ℤ)
    (size : ℕ) : List PreparedRegister → Written → Option Written
  | [], s => some s
  | reg :: rest, s =>
      if reg.index + (reg.sizeOf / 2 : ℕ) ≤ address then writtenLoop eq words address size rest s
      else if reg.index ≥ address + size then some s
      else
        match decodeRegister reg (words reg) with
        | none => none
        | some (asVariant, _) =>
            if eq (s.currentState reg.key) asVariant then
              writtenLoop eq words address size rest s
            else
              writtenLoop eq words address size rest
                { currentState := Function.update s.currentState reg.key asVariant
                  diff := s.diff ++ [(reg.key, .leaf asVariant)] }

/-! ## Runs -/

/-- The state of a slave. `known` are the registers that have been set or reported so far. -/
structure Slaving (server : QModbusServer) where
  server : server.State
  currentState : Bytes → Scalar := fun _ => .invalid
  known : List (RegisterType × Bytes) := []
  sent : List QVariant := []

/-- What can happen: an entry of a message, and a write of a client, which the server carries out as
`setData`. -/
inductive SlaveAction where
  | entry (k : Bytes) (v : Scalar)
  | written (type : RegisterType) (address : ℤ) (values : List Word)

/-- The state after the constructor. -/
def Slave.start (slave : Slave) (server : QModbusServer) : Slaving server where
  server := server.setMap slave.map

section Run

-- what Qt has: its conversions, `operator==` of two leaves, and the server
variable (qt : Conversions) (eq : Scalar → Scalar → Bool) {server : QModbusServer} (slave : Slave)

/-- The unit that `OnMsg` builds for an entry, if it gets that far. -/
def Slave.accept (k : Bytes) (v : Scalar) : Option (PreparedWriteRegister × QModbusDataUnit) :=
  if v = .invalid then none
  else
    match slave.all k with
    | none => none
    | some reg =>
        match encodeRegister qt reg.toPreparedRegister v with
        | .error _ => none
        | .ok words =>
            some (reg, { registerType := reg.mbType, startAddress := reg.index,
                         valueCount := words.length, values := words })

namespace Slaving

/-- `OnMsg`, for one entry of the flattened message. -/
def set (s : Slaving server) (k : Bytes) (v : Scalar) : Slaving server :=
  match slave.accept qt k v with
  | none => s
  | some (reg, unit) =>
      match server.setData s.server unit with
      | none => s
      | some (t, _) =>
          { s with
            server := t
            currentState := Function.update s.currentState k v
            known := s.known ++ [(reg.mbType, k)] }

/-- `onDataWritten`, and the entries of the message that it sends. -/
def onDataWritten (s : Slaving server) (type : RegisterType) (address : ℤ) (size : ℕ) :
    Option (Slaving server × FlatMap) := do
  let w ← writtenLoop eq (server.wordsOf s.server type) address size
    ((slave.sorted type).map Subtype.val) { currentState := s.currentState }
  return ({ s with
    currentState := w.currentState
    known := s.known ++ w.diff.map (fun e => (type, e.1))
    sent := if w.diff = [] then s.sent else s.sent ++ [Unflatten .invalid w.diff] }, w.diff)

/-- The unit that a client writes. -/
abbrev unitOf (type : RegisterType) (address : ℤ) (values : List Word) : QModbusDataUnit :=
  { registerType := type, startAddress := address, valueCount := values.length, values := values }

/-- A write of a client, and the entries of the message that the slave sends for it. -/
def write (s : Slaving server) (type : RegisterType) (address : ℤ) (values : List Word) :
    Option (Slaving server × FlatMap) :=
  match server.setData s.server (unitOf type address values) with
  | none => some (s, [])
  | some (t, false) => some ({ s with server := t }, [])
  | some (t, true) => onDataWritten eq slave { s with server := t } type address values.length

/-- One step of a slave. -/
def step (s : Slaving server) : SlaveAction → Option (Slaving server)
  | .entry k v => some (s.set qt slave k v)
  | .written type address values => (s.write eq slave type address values).map Prod.fst

end Slaving

/-- `OnMsg`: the entries of the flattened message in turn. -/
def Slave.OnMsg (msg : QVariant) : List SlaveAction :=
  (Flatten msg).filterMap fun e =>
    match e.2 with
    | .leaf v => some (.entry e.1 v)
    | _ => none

end Run

/-! ## What the constructor leaves -/

/-- The registers of a table are sorted and have different keys, and the one that a message finds
under a key is one of them. -/
structure Slave.WellFormed (slave : Slave) : Prop where
  sorted_index : ∀ type,
    (slave.sorted type).Pairwise (fun reg reg' => reg.1.index < reg'.1.index)
  sorted_keys : ∀ type, ((slave.sorted type).map (fun reg => reg.1.key)).Nodup
  all_sorted : ∀ {k reg}, slave.all k = some reg →
    reg.key = k ∧ ∃ r ∈ slave.sorted reg.mbType, r.1 = reg.toPreparedRegister

/-- Every entry of a table becomes a register of the slave. -/
private theorem mem_sorted {map : SingleTypeMap ValidRegister} {sorted : List TypedRegister}
    (h : prepareReadableSorted map true = .ok sorted) {entry : Bytes × ValidRegister}
    (hentry : entry ∈ map.entries) : prepared entry.1 entry.2 ∈ sorted := by
  apply (prepareReadableSorted_perm h).mem_iff.mpr
  exact List.mem_map.mpr ⟨entry, List.mem_filter.mpr ⟨hentry, by simp⟩, rfl⟩

/-- What the constructor prepares is well formed. -/
theorem wellFormed_of_prepareSlave {registers : RegistersMap Register} {slave : Slave}
    (h : prepareSlave registers = .ok slave) : slave.WellFormed := by
  obtain ⟨valid, -, h⟩ := bind_eq_ok.mp h
  obtain ⟨all, hall, h⟩ := bind_eq_ok.mp h
  obtain ⟨holding, hholding, h⟩ := bind_eq_ok.mp h
  obtain ⟨coils, hcoils, h⟩ := bind_eq_ok.mp h
  obtain ⟨di, hdi, h⟩ := bind_eq_ok.mp h
  obtain ⟨input, hinput, h⟩ := bind_eq_ok.mp h
  cases h
  refine ⟨?_, ?_, ?_⟩
  · intro type
    cases type with
    | Invalid => exact List.Pairwise.nil
    | DiscreteInputs => exact prepareReadableSorted_sorted hdi
    | Coils => exact prepareReadableSorted_sorted hcoils
    | InputRegisters => exact prepareReadableSorted_sorted hinput
    | HoldingRegisters => exact prepareReadableSorted_sorted hholding
  · intro type
    cases type with
    | Invalid => exact List.nodup_nil
    | DiscreteInputs => exact prepareReadableSorted_keys hdi
    | Coils => exact prepareReadableSorted_keys hcoils
    | InputRegisters => exact prepareReadableSorted_keys hinput
    | HoldingRegisters => exact prepareReadableSorted_keys hholding
  · intro k reg hk
    obtain ⟨hkey, entry, hentry, hreg, -⟩ := mem_of_prepareWrites hall hk
    refine ⟨hkey, prepared entry.1 entry.2, ?_, by rw [hreg]; rfl⟩
    cases htype : reg.mbType with
    | Invalid =>
      rw [htype] at hentry
      cases hentry
    | DiscreteInputs =>
      rw [htype] at hentry
      exact mem_sorted hdi hentry
    | Coils =>
      rw [htype] at hentry
      exact mem_sorted hcoils hentry
    | InputRegisters =>
      rw [htype] at hentry
      exact mem_sorted hinput hentry
    | HoldingRegisters =>
      rw [htype] at hentry
      exact mem_sorted hholding hentry

end Radapter.Modbus
