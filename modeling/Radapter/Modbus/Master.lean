import Radapter.Modbus.Device

/-!
# Masters on a device

Any number of `Master` workers share one `MasterDevice`. A master keeps one record per register
that it is writing: the unit to send and the retries left. A message overwrites the record and
issues a write; the callback of a write either reports the value and erases the record (`ok`) or
issues the record's unit again (`retry`). The value to report travels with each request, and the
callback moves it out when it is called.

The callbacks of a device's requests are the masters' own here. A callback that is called with
an error runs in a step of its own, so a `retry` from inside an overflow, which calls `Execute`
again, is a sequence of steps. Messages come between callbacks, and from the listeners of the
message that `ok` sends, before `ok` erases the record. Masters live as long as their device. Log
calls have no effect here; what a log handler may do in between is added in `LogHandler`. What a
poll reports is the matter of `parsePoll` and does not concern the writes.
-/

namespace Radapter.Modbus

/-- `PreparedWriteRegister`, from a validated register map. -/
structure PreparedWriteRegister extends PreparedRegister where
  writeOnly : Bool := false
  mbType : RegisterType
  typed : type ≠ .defaultValueType
  deriving DecidableEq

/-- What the constructor of a `Master` leaves: its settings, reads and writable registers, which
are stored under their own keys. -/
structure Master where
  slave_id : ℤ := 0
  write_retries : ℕ := 3
  reads : List MergedRead := []
  writable : Bytes → Option PreparedWriteRegister
  keyed : ∀ {k reg}, writable k = some reg → reg.key = k

/-- The closures that masters pass to `Execute`: that of a poll, and that of a write with the
register and the captured value. `seq` is the number of the accepted value whose unit the
request carries. -/
inductive Callback where
  | poll (master read : ℕ)
  | write (master : ℕ) (reg : PreparedWriteRegister) (v : Scalar) (seq : ℕ)
  deriving DecidableEq

/-- A register of one of the masters. -/
abbrev RegisterId := ℕ × Bytes

/-- `InFlight`, with the number of the accepted value it is for. -/
structure InFlight where
  unit : QModbusDataUnit
  retriesLeft : ℕ
  seq : ℕ

/-- A value reported by `ok`, and the unit of the request that was acknowledged. -/
structure Emission where
  register : RegisterId
  value : Scalar
  acknowledged : QModbusDataUnit
  deriving DecidableEq

/-- The message `ok` sends. -/
def Emission.message (e : Emission) : QVariant :=
  Unflatten .invalid [(e.register.2, .leaf e.value)]

/-- What stays fixed in a run: the device's configuration, the masters, and Qt's conversions. -/
structure Plant where
  device : Device := {}
  masters : ℕ → Master
  qt : Conversions

/-- The state of the device and of the masters. `accepted` are the units of the values accepted
for a register so far, `calling` is a request whose callback has been called with an error and
runs next, and `acking` is the register whose `ok` waits for its listeners. -/
structure Masters where
  device : MasterDevice Callback := {}
  inFlight : RegisterId → Option InFlight := fun _ => none
  accepted : RegisterId → List QModbusDataUnit := fun _ => []
  calling : Option (Issued Callback) := none
  acking : Option RegisterId := none
  emitted : List Emission := []

/-- A write-only `uint16` holding register at address 0. -/
def sampleRegister : PreparedWriteRegister :=
  { key := [107], type := .uint16, sizeOf := 2, index := 0, mbType := .HoldingRegisters
    writeOnly := true, typed := nofun }

variable (p : Plant)

/-- The checks `OnMsg` makes for one entry of a flattened message, and the unit it builds.
`valid` says whether the register's validator, if it has one, returned true. -/
def Plant.accept (m : ℕ) (k : Bytes) (v : Scalar) (valid : Bool) :
    Option (PreparedWriteRegister × QModbusDataUnit) :=
  if v = .invalid then none
  else
    match (p.masters m).writable k with
    | none => none
    | some reg =>
        if reg.validator.isSome && !valid then none
        else
          match encodeRegister p.qt reg.toPreparedRegister v with
          | .error _ => none
          | .ok words =>
              some (reg, { registerType := reg.mbType, startAddress := reg.index,
                           valueCount := words.length, values := words })

namespace Masters

variable {p}

/-- `Execute` on the shared device: in an overflow the victim's callback runs next. -/
def execute (p : Plant) (s : Masters) (op : Op) (req : Request Callback) : Option Masters := do
  let d ← s.device.step p.device (.execute op req)
  let victim :=
    if s.device.Overflows p.device op then (p.device.onOver op).victim (s.device.queue op)
    else none
  return { s with device := d, calling := victim }

/-- The request `write` makes: the value is captured for a write-only register only. -/
def writeRequest (p : Plant) (m : ℕ) (unit : QModbusDataUnit) (reg : PreparedWriteRegister)
    (v : Scalar) (seq : ℕ) : Request Callback where
  ctx := m
  slave_id := (p.masters m).slave_id
  unit := unit
  cb := .write m reg (if reg.writeOnly then v else .invalid) seq

/-- The request `poll` makes for one of the reads. -/
def pollRequest (p : Plant) (m i : ℕ) (read : MergedRead) : Request Callback where
  ctx := m
  slave_id := (p.masters m).slave_id
  unit := read.unit
  cb := .poll m i

/-- `write`. -/
def write (p : Plant) (s : Masters) (m : ℕ) (unit : QModbusDataUnit)
    (reg : PreparedWriteRegister) (v : Scalar) (seq : ℕ) : Option Masters :=
  s.execute p .op_write (writeRequest p m unit reg v seq)

/-- `inFlight[k] = {unit, config.write_retries}`, for the next accepted value. -/
def record (p : Plant) (s : Masters) (m : ℕ) (reg : PreparedWriteRegister)
    (unit : QModbusDataUnit) : Masters :=
  let r := (m, reg.key)
  { s with
    inFlight := Function.update s.inFlight r
      (some { unit := unit, retriesLeft := (p.masters m).write_retries
              seq := (s.accepted r).length })
    accepted := Function.update s.accepted r (s.accepted r ++ [unit]) }

/-- The value a callback finds in its capture: the first call moves it out. The call itself is
already counted. -/
def captured (s : Masters) (x : Issued Callback) (v : Scalar) : Scalar :=
  if s.device.calls x = 1 then v else .invalid

/-- `it->second.retriesLeft--`. -/
def spend (s : Masters) (r : RegisterId) (record : InFlight) : Masters :=
  { s with
    inFlight := Function.update s.inFlight r
      (some { record with retriesLeft := record.retriesLeft - 1 }) }

/-- `retry`. -/
def retry (p : Plant) (s : Masters) (m : ℕ) (reg : PreparedWriteRegister) (v : Scalar) :
    Option Masters :=
  match s.inFlight (m, reg.key) with
  | none => some s
  | some record =>
      if record.retriesLeft = 0 then some s
      else (s.spend (m, reg.key) record).write p m record.unit reg v record.seq

/-- A callback that was called with an error. -/
def fail (p : Plant) (s : Masters) (x : Issued Callback) : Option Masters :=
  let s := { s with calling := none }
  match x.req.cb with
  | .poll _ _ => some s
  | .write m reg v _ => s.retry p m reg (s.captured x v)

/-- The retry that the callback that runs next will make: the failed request, its register and
the record. -/
def retrying (s : Masters) : Option (Issued Callback × PreparedWriteRegister × InFlight) := do
  let x ← s.calling
  match x.req.cb with
  | .poll _ _ => none
  | .write m reg _ _ =>
      let record ← s.inFlight (m, reg.key)
      if record.retriesLeft = 0 then none else some (x, reg, record)

/-- `ok`, up to its listeners when it sends a message. -/
def ok (s : Masters) (x : Issued Callback) (m : ℕ) (reg : PreparedWriteRegister) (v : Scalar) :
    Masters :=
  if reg.writeOnly then
    { s with
      emitted := s.emitted ++ [{ register := (m, reg.key), value := v,
                                 acknowledged := x.req.unit }]
      acking := some (m, reg.key) }
  else { s with inFlight := Function.update s.inFlight (m, reg.key) none }

/-- A callback that was called with a result. -/
def succeed (s : Masters) (x : Issued Callback) : Masters :=
  match x.req.cb with
  | .poll _ _ => s
  | .write m reg v _ => s.ok x m reg (s.captured x v)

/-- What can happen: an entry of a message to a master, a read of its poll, a tick or a reply of
the device, and the next piece of a callback that is running. -/
inductive Action where
  | entry (m : ℕ) (k : Bytes) (v : Scalar) (valid : Bool)
  | poll (m i : ℕ)
  | nextReq (sent : Bool)
  | finished (failed : Bool)
  | callback
  | callbackReturns
  | emitted

/-- No callback is running, listeners of a sent message apart. -/
def Quiet (s : Masters) : Prop := s.calling = none ∧ s.device.stack = []

instance (s : Masters) : Decidable s.Quiet :=
  decidable_of_iff (s.calling.isNone ∧ s.device.stack.isEmpty)
    (by simp [Quiet, Option.isNone_iff_eq_none, List.isEmpty_iff])

/-- The request a tick of the device takes off its queues. -/
def upNext (s : Masters) : Option (Issued Callback) :=
  if s.device.flight.isSome then none
  else (s.device.queue .op_write).head?.or (s.device.queue .op_read).head?

/-- One step of the masters and their device. -/
def step (p : Plant) (s : Masters) : Action → Option Masters
  | .entry m k v valid =>
      if s.Quiet then
        match p.accept m k v valid with
        | none => some s
        | some (reg, unit) =>
            (s.record p m reg unit).write p m unit reg v (s.accepted (m, reg.key)).length
      else none
  | .poll m i =>
      if s.Quiet ∧ s.acking = none then do
        let read ← (p.masters m).reads[i]?
        s.execute p .op_read (pollRequest p m i read)
      else none
  | .nextReq sent =>
      if s.Quiet ∧ s.acking = none then do
        let d ← s.device.step p.device (.nextReq sent)
        return { s with device := d, calling := if sent then none else s.upNext }
      else none
  | .finished failed =>
      if s.Quiet ∧ s.acking = none then do
        let x ← s.device.flight
        let d ← s.device.step p.device (.finished failed)
        if failed then return { s with device := d, calling := some x }
        else return ({ s with device := d } : Masters).succeed x
      else none
  | .callback => do
      let x ← s.calling
      s.fail p x
  | .callbackReturns =>
      if s.calling = none then do
        let d ← s.device.step p.device .callbackReturns
        return { s with device := d }
      else none
  | .emitted =>
      if s.Quiet then do
        let r ← s.acking
        return { s with inFlight := Function.update s.inFlight r none, acking := none }
      else none

/-- An accepted entry is for a register of the master, and its unit has the encoded value. -/
theorem accept_eq_some {p : Plant} {m : ℕ} {k : Bytes} {v : Scalar} {valid : Bool}
    {reg : PreparedWriteRegister} {unit : QModbusDataUnit}
    (h : p.accept m k v valid = some (reg, unit)) :
    reg.key = k ∧ (p.masters m).writable reg.key = some reg ∧
      encodeRegister p.qt reg.toPreparedRegister v = .ok unit.values := by
  unfold Plant.accept at h
  split at h
  · cases h
  split at h
  · cases h
  next reg' hreg =>
  split at h
  · cases h
  split at h
  · cases h
  next words hwords =>
  cases h
  have hkey := (p.masters m).keyed hreg
  exact ⟨hkey, by rw [hkey]; exact hreg, hwords⟩

/-- The unit of an accepted entry is for the place of its register. -/
theorem unit_of_accept {k : Bytes} {v : Scalar} {valid : Bool} {reg : PreparedWriteRegister}
    {unit : QModbusDataUnit} (h : p.accept m k v valid = some (reg, unit)) :
    unit.registerType = reg.mbType ∧ unit.startAddress = reg.index := by
  unfold Plant.accept at h
  split at h
  · cases h
  split at h
  · cases h
  split at h
  · cases h
  split at h
  · cases h
  cases h
  exact ⟨rfl, rfl⟩

/-- `OnMsg`: the entries of the flattened message in turn, with the validators' answers. -/
def OnMsg (m : ℕ) (msg : QVariant) (valid : Bytes → Bool) : List Action :=
  (Flatten msg).filterMap fun e =>
    match e.2 with
    | .leaf v => some (.entry m e.1 v (valid e.1))
    | _ => none

end Masters

end Radapter.Modbus
