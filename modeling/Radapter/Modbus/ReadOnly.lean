import Radapter.Modbus.Requests
import Radapter.Modbus.WriteOrder

/-!
# Registers that a master can write

`validateRegisters` refuses a writable mode for the tables that a device lets nobody write, and
gives the registers without a mode one of their own. Discrete inputs get `read`, but input registers
get the mode of holding registers, so `prepareWrites` counts them among the writable ones, and a
message with such a key makes the master send a write that no device accepts.
-/

namespace Radapter.Modbus

open Library

/-- The tables of a device that a request can write. -/
def RegisterType.CanWrite (type : RegisterType) : Prop := type = .Coils ∨ type = .HoldingRegisters

instance (type : RegisterType) : Decidable type.CanWrite := inferInstanceAs (Decidable (_ ∨ _))

/-- Every input register has a mode of its own. -/
def RegistersMap.InputModes (regs : RegistersMap Register) : Prop :=
  ∀ entry ∈ regs.input.entries, entry.2.mode ≠ .defaultMode

instance (regs : RegistersMap Register) : Decidable regs.InputModes :=
  inferInstanceAs (Decidable (∀ entry ∈ regs.input.entries, entry.2.mode ≠ .defaultMode))

/-! ## The tables after the checks -/

/-- An input that passes the check is read-only, or has no mode of its own. -/
theorem mode_of_validateReadOnly {key : Bytes} {reg : Register} {type : String}
    (h : validateReadOnly key reg type = .ok ()) : reg.mode = .read ∨ reg.mode = .defaultMode := by
  unfold validateReadOnly at h
  split_ifs at h with hmode
  cases hcase : reg.mode with
  | read => exact Or.inl rfl
  | defaultMode => exact Or.inr rfl
  | write => exact absurd (Or.inl hcase) hmode
  | read_write => exact absurd (Or.inr hcase) hmode

/-- What `validateRegisters` leaves of the two tables that cannot be written. -/
theorem validateRegisters_eq_ok {regs : RegistersMap Register} {valid : RegistersMap ValidRegister}
    (h : validateRegisters regs = .ok valid) :
    (∀ entry ∈ regs.input.entries, entry.2.mode = .read ∨ entry.2.mode = .defaultMode) ∧
      valid.di = regs.di.update (fun reg => reg.asBit .read) ∧
      valid.input = regs.input.update Register.asWords := by
  obtain ⟨-, -, h⟩ := bind_eq_ok.mp h
  obtain ⟨-, -, h⟩ := bind_eq_ok.mp h
  obtain ⟨⟨⟩, hinput, h⟩ := bind_eq_ok.mp h
  cases h
  refine ⟨fun entry hentry => ?_, rfl, rfl⟩
  exact mode_of_validateReadOnly (forall_of_forM hinput entry hentry)

/-- The discrete inputs are read-only after the checks. -/
theorem mode_of_mem_di {regs : RegistersMap Register} {valid : RegistersMap ValidRegister}
    (h : validateRegisters regs = .ok valid) {entry : Bytes × ValidRegister}
    (hentry : entry ∈ valid.di.entries) : entry.2.1.mode = .read := by
  rw [(validateRegisters_eq_ok h).2.1] at hentry
  obtain ⟨e, -, rfl⟩ := List.mem_map.mp hentry
  rfl

/-- An input register is read-only after the checks if it had a mode. -/
theorem mode_of_mem_input {regs : RegistersMap Register} {valid : RegistersMap ValidRegister}
    (h : validateRegisters regs = .ok valid) (hmodes : regs.InputModes)
    {entry : Bytes × ValidRegister} (hentry : entry ∈ valid.input.entries) :
    entry.2.1.mode = .read := by
  obtain ⟨hread, -, hinput⟩ := validateRegisters_eq_ok h
  rw [hinput] at hentry
  obtain ⟨e, he, rfl⟩ := List.mem_map.mp hentry
  have hmode : e.2.mode = .read := (hread e he).resolve_right (hmodes e he)
  simp [Register.asWords, hmode]

/-! ## The writable registers -/

/-- The register can be written: its table can, and its mode allows it. -/
def Permitted (valid : RegistersMap ValidRegister) (reg : PreparedWriteRegister) : Prop :=
  reg.mbType.CanWrite ∧ ∃ entry ∈ (valid.table reg.mbType).entries,
    reg = preparedWrite reg.mbType entry.1 entry.2 ∧ entry.2.1.mode ≠ .read

/-- A key that no entry has keeps what it had. -/
private theorem foldl_update_of_notMem {regs : List PreparedWriteRegister} {k : Bytes}
    (hk : k ∉ regs.map (fun reg => reg.key)) (start : Bytes → Option PreparedWriteRegister) :
    regs.foldl (fun (result : Bytes → Option PreparedWriteRegister) reg =>
      Function.update result reg.key (some reg)) start k = start k := by
  induction regs generalizing start with
  | nil => rfl
  | cons first rest ih =>
    rw [List.map_cons, List.mem_cons, not_or] at hk
    rw [List.foldl_cons, ih hk.2, Function.update_of_ne hk.1]

/-- The registers that are stored last are found under their keys. -/
private theorem foldl_update_of_mem {regs : List PreparedWriteRegister}
    (hkeys : (regs.map (fun reg => reg.key)).Nodup) {reg : PreparedWriteRegister}
    (hreg : reg ∈ regs)
    (start : Bytes → Option PreparedWriteRegister) :
    regs.foldl (fun (result : Bytes → Option PreparedWriteRegister) reg =>
      Function.update result reg.key (some reg)) start reg.key = some reg := by
  induction regs generalizing start with
  | nil => cases hreg
  | cons first rest ih =>
    obtain ⟨hfirst, hrest⟩ := List.nodup_cons.mp hkeys
    rw [List.foldl_cons]
    rcases List.mem_cons.mp hreg with rfl | hmem
    · rw [foldl_update_of_notMem hfirst, Function.update_self]
    · exact ih hrest hmem _

/-- The input table is the last one that is stored. -/
theorem writable_of_input {valid : RegistersMap ValidRegister}
    {writable : Bytes → Option PreparedWriteRegister}
    (h : prepareWrites valid false = .ok writable) {reg : PreparedWriteRegister}
    (hreg : reg ∈ writableOf valid.input .InputRegisters false) : writable reg.key = some reg := by
  obtain ⟨coils, hcoils, h⟩ := bind_eq_ok.mp h
  obtain ⟨di, hdi, h⟩ := bind_eq_ok.mp h
  obtain ⟨holding, hholding, h⟩ := bind_eq_ok.mp h
  obtain ⟨input, hinput, h⟩ := bind_eq_ok.mp h
  cases h
  have hperm := addWrites_perm hinput
  have hkeys : (input.map (fun reg => reg.key)).Nodup := by
    rw [(hperm.map _).nodup_iff, writableOf, List.map_map]
    have hall : (valid.input.entries.map Prod.fst).Nodup := by
      refine valid.input.ascending.imp ?_
      rintro a b hlt rfl
      exact List.lt_irrefl a hlt
    exact hall.sublist (List.Sublist.map Prod.fst List.filter_sublist)
  rw [List.foldl_append]
  exact foldl_update_of_mem hkeys (hperm.mem_iff.mpr hreg) _

/-- An input register without a mode becomes a writable register. -/
theorem exists_writable_input {regs : RegistersMap Register} {valid : RegistersMap ValidRegister}
    {writable : Bytes → Option PreparedWriteRegister} (hvalid : validateRegisters regs = .ok valid)
    (hwrites : prepareWrites valid false = .ok writable) (hmodes : ¬ regs.InputModes) :
    ∃ k reg, writable k = some reg ∧ reg.mbType = .InputRegisters := by
  rw [RegistersMap.InputModes] at hmodes
  push Not at hmodes
  obtain ⟨e, he, hdefault⟩ := hmodes
  have hmode : (e.2.asWords).1.mode = .read_write := by simp [Register.asWords, hdefault]
  have hentry : (e.1, e.2.asWords) ∈ valid.input.entries := by
    rw [(validateRegisters_eq_ok hvalid).2.2]
    exact List.mem_map.mpr ⟨e, he, rfl⟩
  have hreg : preparedWrite .InputRegisters e.1 e.2.asWords ∈
      writableOf valid.input .InputRegisters false := by
    apply List.mem_map.mpr
    refine ⟨(e.1, e.2.asWords), List.mem_filter.mpr ⟨hentry, ?_⟩, rfl⟩
    simp [hmode]
  exact ⟨_, _, writable_of_input hwrites hreg, rfl⟩

/-- All writable registers are permitted if and only if every input register had a mode. -/
theorem permitted_iff {regs : RegistersMap Register} {valid : RegistersMap ValidRegister}
    {writable : Bytes → Option PreparedWriteRegister} (hvalid : validateRegisters regs = .ok valid)
    (hwrites : prepareWrites valid false = .ok writable) :
    (∀ k reg, writable k = some reg → Permitted valid reg) ↔ regs.InputModes := by
  constructor
  · intro hall
    by_contra hmodes
    obtain ⟨k, reg, hk, htype⟩ := exists_writable_input hvalid hwrites hmodes
    have hcan := (hall k reg hk).1
    rw [htype] at hcan
    revert hcan
    decide
  · intro hmodes k reg hk
    obtain ⟨-, entry, hentry, hreg, hmode⟩ := mem_of_prepareWrites hwrites hk
    have hmode' : entry.2.1.mode ≠ .read := hmode.resolve_right Bool.false_ne_true
    refine ⟨?_, entry, hentry, hreg, hmode'⟩
    cases htype : reg.mbType with
    | Coils => exact Or.inl rfl
    | HoldingRegisters => exact Or.inr rfl
    | Invalid =>
      rw [htype] at hentry
      cases hentry
    | DiscreteInputs =>
      rw [htype] at hentry
      exact absurd (mode_of_mem_di hvalid hentry) hmode'
    | InputRegisters =>
      rw [htype] at hentry
      exact absurd (mode_of_mem_input hvalid hmodes hentry) hmode'

/-! ## The requests of a run -/

namespace Masters

/-- The writes of a master, issued or recorded for a retry, are for tables that can be written. -/
structure WritesPermitted (m : ℕ) (s : Masters) : Prop where
  issued : ∀ x ∈ s.device.issued, x.req.ctx = m → x.op = .op_write →
    x.req.unit.registerType.CanWrite
  recorded : ∀ k record, s.inFlight (m, k) = some record → record.unit.registerType.CanWrite

variable {p : Plant} {m : ℕ} {s : Masters}

/-- A request that is issued must be for a table that can be written, if it is a write of the
master. -/
theorem WritesPermitted.issue (h : s.WritesPermitted m) {op : Op} {req : Request Callback}
    (hreq : req.ctx = m → op = .op_write → req.unit.registerType.CanWrite) :
    (s.issue p op req).WritesPermitted m := by
  refine ⟨?_, h.recorded⟩
  intro x hx
  rw [issued_issue] at hx
  rcases List.mem_append.mp hx with hx | hx
  · exact h.issued x hx
  · rw [List.mem_singleton.mp hx]
    exact hreq

/-- A step that issues nothing, and leaves no record with another unit. -/
theorem WritesPermitted.of_frame {t : Masters} (h : s.WritesPermitted m)
    (hissued : t.device.issued = s.device.issued)
    (hrecords : ∀ r record, t.inFlight r = some record →
      ∃ old, s.inFlight r = some old ∧ old.unit = record.unit) : t.WritesPermitted m := by
  constructor
  · rw [hissued]
    exact h.issued
  · intro k record hrecord
    obtain ⟨old, hold, hunit⟩ := hrecords (m, k) record hrecord
    rw [← hunit]
    exact h.recorded k old hold

/-- So must the unit of a new record. -/
theorem WritesPermitted.record (h : s.WritesPermitted m) {n : ℕ} {reg : PreparedWriteRegister}
    {unit : QModbusDataUnit} (hunit : n = m → unit.registerType.CanWrite) :
    (s.record p n reg unit).WritesPermitted m := by
  refine ⟨h.issued, ?_⟩
  intro k record hrecord
  simp only [Masters.record] at hrecord
  by_cases hr : (m, k) = (n, reg.key)
  · rw [hr, Function.update_self, Option.some_inj] at hrecord
    subst hrecord
    exact hunit (congrArg Prod.fst hr).symm
  · rw [Function.update_of_ne hr] at hrecord
    exact h.recorded k record hrecord

/-- A record that loses a retry keeps its unit. -/
theorem WritesPermitted.spend (h : s.WritesPermitted m) {r : RegisterId} {record : InFlight}
    (hrecord : s.inFlight r = some record) : (s.spend r record).WritesPermitted m := by
  refine h.of_frame rfl ?_
  intro other record' hrecord'
  simp only [Masters.spend] at hrecord'
  by_cases hr : other = r
  · rw [hr, Function.update_self, Option.some_inj] at hrecord'
    subst hrecord'
    exact ⟨record, hr ▸ hrecord, rfl⟩
  · rw [Function.update_of_ne hr] at hrecord'
    exact ⟨record', hrecord', rfl⟩

/-- A record that is erased leaves those of the other registers. -/
private theorem records_of_none {s t : Masters} {r : RegisterId}
    (ht : t.inFlight = Function.update s.inFlight r none) (other : RegisterId) (record : InFlight)
    (h : t.inFlight other = some record) :
    ∃ old, s.inFlight other = some old ∧ old.unit = record.unit := by
  rw [ht] at h
  exact ⟨record, of_update_none h, rfl⟩

/-- Every step of the masters keeps to the tables that can be written. -/
theorem WritesPermitted.step (h : s.WritesPermitted m)
    (hwritable : ∀ k reg, (p.masters m).writable k = some reg → reg.mbType.CanWrite) {t : Masters}
    {a : Action} (hstep : s.step p a = some t) : t.WritesPermitted m := by
  cases effect_of_step hstep with
  | refuse => exact h
  | @accept n k v valid reg unit hquiet hsound haccept =>
    have hunit : n = m → unit.registerType.CanWrite := by
      rintro rfl
      rw [(unit_of_accept haccept).1]
      exact hwritable reg.key reg (accept_eq_some haccept).2.1
    exact (h.record hunit).issue fun hctx _ => hunit hctx
  | poll => exact h.issue fun _ hop => absurd hop (by decide)
  | nextReq =>
    exact h.of_frame (s.device.nextReq_frame _).1 fun r record hrecord => ⟨record, hrecord, rfl⟩
  | failed hquiet hsound hflight hd =>
    exact h.of_frame (MasterDevice.finished_frame hd).2.2.1
      fun r record hrecord => ⟨record, hrecord, rfl⟩
  | @succeeded x d hquiet hsound hacking hflight hd =>
    have hdone := h.of_frame (t := { s with device := d }) (MasterDevice.finished_frame hd).2.2.1
      fun r record hrecord => ⟨record, hrecord, rfl⟩
    unfold succeed
    split
    · exact hdone
    · unfold Masters.ok
      split_ifs
      · exact hdone.of_frame rfl fun r record hrecord => ⟨record, hrecord, rfl⟩
      · exact hdone.of_frame rfl (records_of_none rfl)
  | giveUp => exact h.of_frame rfl fun r record hrecord => ⟨record, hrecord, rfl⟩
  | @retry x n reg v seq record hcalling hsound hcb hrecord hleft =>
    have hspent := h.of_frame (t := { s with calling := none }) rfl
      fun r record hrecord => ⟨record, hrecord, rfl⟩
    refine (hspent.spend hrecord).issue ?_
    rintro rfl -
    exact h.recorded reg.key record hrecord
  | callbackReturns hcalling hsound hd =>
    exact h.of_frame (MasterDevice.callbackReturns_frame hd).1
      fun r record hrecord => ⟨record, hrecord, rfl⟩
  | emitted => exact h.of_frame rfl (records_of_none rfl)

/-- In every run the writes of a master are for the tables of its registers. -/
theorem run_writesPermitted
    (hwritable : ∀ k reg, (p.masters m).writable k = some reg → reg.mbType.CanWrite)
    {actions : List Action} {t : Masters} (hrun : run (Masters.step p) {} actions = some t) :
    t.WritesPermitted m := by
  have hinit : ({} : Masters).WritesPermitted m :=
    ⟨fun x hx => absurd hx List.not_mem_nil, fun k record hrecord => by cases hrecord⟩
  exact run_invariant_of_step (fun h hstep => h.step hwritable hstep) hinit hrun

/-- A `true` is encoded for every register. -/
theorem accept_true {reg : PreparedWriteRegister} {k : Bytes}
    (hk : (p.masters m).writable k = some reg) :
    ∃ unit, p.accept m k (.bool true) true = some (reg, unit) := by
  obtain ⟨words, hwords⟩ : ∃ words, encodeRegister p.qt reg.toPreparedRegister (.bool true) =
      .ok words := by
    cases htype : reg.type with
    | defaultValueType => exact absurd htype reg.typed
    | bit =>
      refine ⟨[if (Scalar.bool true).toBool p.qt then 1 else 0], ?_⟩
      simp only [encodeRegister, htype]
    | uint16 => exact ⟨_, by simp only [encodeRegister, htype, Scalar.toUInt]; rfl⟩
    | uint32 => exact ⟨_, by simp only [encodeRegister, htype, Scalar.toUInt]; rfl⟩
    | float32 => exact ⟨_, by simp only [encodeRegister, htype, Scalar.toFloat]; rfl⟩
  refine ⟨{ registerType := reg.mbType, startAddress := reg.index,
            valueCount := words.length, values := words }, ?_⟩
  simp only [Plant.accept, hk, hwords, reduceCtorEq, if_false, Bool.not_true, Bool.and_false,
    Bool.false_eq_true]

/-- A new device queues the first write. -/
theorem first_execute {config : Device} (hlimit : 0 < config.limit .op_write)
    (req : Request Callback) :
    ({} : MasterDevice Callback).Execute config .op_write req =
      ({ issued := [⟨0, .op_write, req⟩] } : MasterDevice Callback).setQueue .op_write
        [⟨0, .op_write, req⟩] := by
  have hroom : ¬ ({} : MasterDevice Callback).Overflows config .op_write := not_le.mpr hlimit
  rcases ({} : MasterDevice Callback).Execute_cases config .op_write req with
    ⟨-, heq⟩ | ⟨hfull, -⟩ | ⟨hfull, -⟩
  · exact heq
  · exact absurd hfull hroom
  · exact absurd hfull hroom

/-- A message with the key of a writable register makes the master send a write for its table. -/
theorem exists_run_sent {reg : PreparedWriteRegister} {k : Bytes}
    (hk : (p.masters m).writable k = some reg) (hlimit : 0 < p.device.limit .op_write) :
    ∃ t, run (Masters.step p) {} [.entry m k (.bool true) true, .nextReq true] = some t ∧
      ∃ x ∈ t.device.sent, x.req.ctx = m ∧ x.op = .op_write ∧
        x.req.unit.registerType = reg.mbType := by
  obtain ⟨unit, haccept⟩ := accept_true hk
  have hquiet : ({} : Masters).Quiet := ⟨rfl, rfl⟩
  let recorded : Masters := ({} : Masters).record p m reg unit
  let req : Request Callback := writeRequest p m unit reg (.bool true) 0
  let s : Masters := recorded.issue p .op_write req
  have hentry : ({} : Masters).step p (.entry m k (.bool true) true) = some s := by
    simp only [Masters.step, hquiet, if_true, haccept, List.length_nil]
    rfl
  have hdevice : s.device = ({ issued := [⟨0, .op_write, req⟩] } : MasterDevice Callback).setQueue
      .op_write [⟨0, .op_write, req⟩] := first_execute hlimit req
  have hcalling : s.calling = none :=
    if_neg (not_le.mpr hlimit : ¬ recorded.device.Overflows p.device .op_write)
  have htick : s.step p (.nextReq true) =
      some { s with device := s.device.nextReq true, calling := none } := by
    have hstack : s.device.stack = [] := by
      rw [hdevice]
      rfl
    have hsound : s.device.touchedEmpty = false := by
      rw [hdevice]
      rfl
    have hquiet' : s.Quiet ∧ s.acking = none := ⟨⟨hcalling, hstack⟩, rfl⟩
    simp only [Masters.step, hquiet', MasterDevice.step, hsound, hstack]
    rfl
  have hsent : (s.device.nextReq true).sent = [⟨0, .op_write, req⟩] := by
    rw [hdevice]
    rfl
  refine ⟨{ s with device := s.device.nextReq true, calling := none }, ?_,
    ⟨0, .op_write, req⟩, ?_, rfl, rfl, (unit_of_accept haccept).1⟩
  · simp only [run, hentry, htick, Option.bind_some]
  · simp only [hsent, List.mem_singleton]

end Masters

/-- The writable registers are coils and holding registers that are not read-only, and no master
that has them sends a write for another table. -/
structure WritesAllowed (valid : RegistersMap ValidRegister)
    (writable : Bytes → Option PreparedWriteRegister) : Prop where
  permitted : ∀ k reg, writable k = some reg → Permitted valid reg
  sent : ∀ (p : Plant) (m : ℕ), (p.masters m).writable = writable → ∀ actions s,
    run (Masters.step p) {} actions = some s → ∀ x ∈ s.device.sent,
      x.req.ctx = m → x.op = .op_write → x.req.unit.registerType.CanWrite

/-- An accepted map gives writes for coils and holding registers only if and only if every register
of the input table has a mode. Without one a device with room in its queue can be sent a write for
an input register. -/
theorem writesAllowed_iff {regs : RegistersMap Register} {valid : RegistersMap ValidRegister}
    {writable : Bytes → Option PreparedWriteRegister} (hvalid : validateRegisters regs = .ok valid)
    (hwrites : prepareWrites valid false = .ok writable) :
    (WritesAllowed valid writable ↔ regs.InputModes) ∧
      (¬ regs.InputModes → ∀ (p : Plant) (m : ℕ), (p.masters m).writable = writable →
        0 < p.device.limit .op_write → ∃ actions s, run (Masters.step p) {} actions = some s ∧
          ∃ x ∈ s.device.sent, x.req.ctx = m ∧ x.op = .op_write ∧
            x.req.unit.registerType = .InputRegisters) := by
  refine ⟨⟨fun h => (permitted_iff hvalid hwrites).mp h.permitted, fun hmodes => ?_⟩, ?_⟩
  · have hpermitted := (permitted_iff hvalid hwrites).mpr hmodes
    refine ⟨hpermitted, ?_⟩
    rintro p m rfl actions s hrun x hx
    have hissued : x ∈ s.device.issued :=
      (run_invariant_of_step (fun h ht => Masters.Ordered.step h ht) Masters.ordered_init
        hrun).knownSent x hx
    have hinv := Masters.run_writesPermitted (fun k reg hk => (hpermitted k reg hk).1) hrun
    exact hinv.issued x hissued
  · rintro hmodes p m rfl hlimit
    obtain ⟨k, reg, hk, htype⟩ := exists_writable_input hvalid hwrites hmodes
    obtain ⟨s, hrun, x, hx, hctx, hop, hunit⟩ := Masters.exists_run_sent hk hlimit
    exact ⟨_, s, hrun, x, hx, hctx, hop, hunit.trans htype⟩

/-- An input register with a mode, and a holding register. -/
def inputAndHolding (mode : RegisterMode) : RegistersMap Register where
  di := ⟨[], ascending_nil⟩
  holding := ⟨[([98], { index := 0 })], List.pairwise_singleton _ _⟩
  input := ⟨[([97], { index := 0, mode := mode })], List.pairwise_singleton _ _⟩
  coils := ⟨[], ascending_nil⟩

/-- Such a map is accepted if the mode does not say that the input register is written. -/
theorem exists_writable_inputAndHolding (mode : RegisterMode)
    (hmode : ¬ (mode = .write ∨ mode = .read_write)) :
    ∃ valid writable, validateRegisters (inputAndHolding mode) = .ok valid ∧
      prepareWrites valid false = .ok writable := by
  let valid : RegistersMap ValidRegister :=
    { di := (inputAndHolding mode).di.update (fun reg => reg.asBit .read)
      holding := (inputAndHolding mode).holding.update Register.asWords
      input := (inputAndHolding mode).input.update Register.asWords
      coils := (inputAndHolding mode).coils.update (fun reg => reg.asBit reg.mode) }
  have hvalid : validateRegisters (inputAndHolding mode) = .ok valid := by
    cases mode with
    | read => rfl
    | defaultMode => rfl
    | write => exact absurd (Or.inl rfl) hmode
    | read_write => exact absurd (Or.inr rfl) hmode
  have hadded : ∀ type : RegisterType,
      ∃ regs, addWrites (valid.table type) type false = .ok regs := by
    intro type
    cases mode <;> cases type <;> exact ⟨_, rfl⟩
  obtain ⟨writable, hwritable⟩ := (prepareWrites_ok_iff valid false).mpr hadded
  exact ⟨valid, writable, hvalid, hwritable⟩

/-- With `read` for the input register only the holding register is written. -/
theorem writesAllowed_read :
    ∃ valid writable, validateRegisters (inputAndHolding .read) = .ok valid ∧
      prepareWrites valid false = .ok writable ∧ WritesAllowed valid writable := by
  obtain ⟨valid, writable, hvalid, hwrites⟩ :=
    exists_writable_inputAndHolding .read (by decide)
  exact ⟨valid, writable, hvalid, hwrites,
    (writesAllowed_iff hvalid hwrites).1.mpr (by decide)⟩

/-- Without a mode the input register is writable as well, and a message makes the master send a
write for it. -/
theorem input_written :
    ∃ valid writable, validateRegisters (inputAndHolding .defaultMode) = .ok valid ∧
      prepareWrites valid false = .ok writable ∧ ¬ WritesAllowed valid writable ∧
      ∃ (p : Plant) (actions : List Masters.Action) (s : Masters),
        (p.masters 0).writable = writable ∧ run (Masters.step p) {} actions = some s ∧
          ∃ x ∈ s.device.sent, x.req.ctx = 0 ∧ x.op = .op_write ∧
            x.req.unit.registerType = .InputRegisters := by
  obtain ⟨valid, writable, hvalid, hwrites⟩ :=
    exists_writable_inputAndHolding .defaultMode (by decide)
  have hmodes : ¬ (inputAndHolding .defaultMode).InputModes := by decide
  let p : Plant :=
    { masters := fun _ =>
        { writable := writable
          keyed := fun h => (mem_of_prepareWrites hwrites h).1 }
      qt := integersOnly }
  obtain ⟨k, reg, hk, htype⟩ := exists_writable_input hvalid hwrites hmodes
  obtain ⟨s, hrun, x, hx, hctx, hop, hunit⟩ :=
    Masters.exists_run_sent (p := p) (m := 0) hk (show (0 : ℤ) < 100 by decide)
  refine ⟨valid, writable, hvalid, hwrites, ?_, p, _, s, rfl, hrun, x, hx, hctx, hop,
    hunit.trans htype⟩
  exact fun h => hmodes ((permitted_iff hvalid hwrites).mp h.permitted)

end Radapter.Modbus
