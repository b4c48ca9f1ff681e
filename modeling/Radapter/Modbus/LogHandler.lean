import Radapter.Modbus.MasterSteps

/-!
# Masters and the log handler

A log call runs the script's log handler before it returns, and the handler may send messages to
masters. So messages can also come in where `Execute` has found a queue full and is about to make
room in it, and where a callback that was called with an error is about to retry or has given up.
While the handler runs, log calls do not run it again.

The machine of this file adds the log handler to that of the masters. A handler that waits for
something counts as one that has returned: what it does later is like any other message.
-/

namespace Radapter.Modbus

/-- `Execute` on a full queue, once the overflow has been logged. The queue is not looked at again
to see whether it is still full. -/
def MasterDevice.overflow {γ : Type*} (config : Device) (d : MasterDevice γ) (op : Op)
    (req : Request γ) : MasterDevice γ :=
  let x : Issued γ := { id := d.issued.length, op := op, req := req }
  let d := { d with issued := d.issued ++ [x] }
  match (config.onOver op).victim (d.queue op) with
  | none => { d with touchedEmpty := true }
  | some v =>
      { d with
        called := d.called ++ [{ request := v, failed := true }]
        stack := { pending := x, victim := v } :: d.stack }

/-- A call of `Execute` during which no handler runs. -/
theorem MasterDevice.Execute_eq_overflow {γ : Type*} {config : Device} {d : MasterDevice γ}
    {op : Op} (h : d.Overflows config op) (req : Request γ) :
    d.Execute config op req = d.overflow config op req :=
  if_pos h

namespace Masters

/-- What `OnMsg` does with an entry of a message. -/
def enter (p : Plant) (s : Masters) (m : ℕ) (k : Bytes) (v : Scalar) (valid : Bool) :
    Option Masters :=
  match p.accept m k v valid with
  | none => some s
  | some (reg, unit) =>
      (s.record p m reg unit).write p m unit reg v (s.accepted (m, reg.key)).length

/-- The call of `Execute` that a step makes, with the state it is made in. -/
def requested (p : Plant) (s : Masters) : Action → Option (Masters × Op × Request Callback)
  | .entry m k v valid =>
      if s.Quiet then
        match p.accept m k v valid with
        | none => none
        | some (reg, unit) =>
            some (s.record p m reg unit, .op_write,
              writeRequest p m unit reg v (s.accepted (m, reg.key)).length)
      else none
  | .poll m i =>
      if s.Quiet ∧ s.acking = none then
        match (p.masters m).reads[i]? with
        | none => none
        | some read => some (s, .op_read, pollRequest p m i read)
      else none
  | .callback =>
      match s.calling with
      | none => none
      | some x =>
          match x.req.cb with
          | .poll _ _ => none
          | .write m reg v _ =>
              match s.inFlight (m, reg.key) with
              | none => none
              | some record =>
                  if record.retriesLeft = 0 then none
                  else
                    some (({ s with calling := none } : Masters).spend (m, reg.key) record,
                      .op_write, writeRequest p m record.unit reg (s.captured x v) record.seq)
  | _ => none

/-- The rest of a call of `Execute` that has logged an overflow. -/
def overflow (p : Plant) (s : Masters) (op : Op) (req : Request Callback) : Option Masters :=
  if s.device.touchedEmpty then none
  else
    some { s with
      device := s.device.overflow p.device op req
      calling := (p.device.onOver op).victim (s.device.queue op) }

variable {p : Plant} {s t : Masters}

/-- A step that calls `Execute` does nothing else behind it. -/
theorem step_of_requested {a : Action} {op : Op} {req : Request Callback}
    (h : s.requested p a = some (t, op, req)) : s.step p a = t.execute p op req := by
  cases a with
  | entry m k v valid =>
    simp only [requested] at h
    split at h
    · next hquiet =>
      cases haccept : p.accept m k v valid with
      | none => simp [haccept] at h
      | some pair =>
        simp only [haccept] at h
        cases h
        simp only [step, if_pos hquiet, haccept, write]
    · cases h
  | poll m i =>
    simp only [requested] at h
    split at h
    · next hquiet =>
      cases hread : (p.masters m).reads[i]? with
      | none => simp [hread] at h
      | some read =>
        simp only [hread] at h
        cases h
        simp only [step, if_pos hquiet, hread, Option.bind_eq_bind, Option.bind_some]
    · cases h
  | callback =>
    simp only [requested] at h
    cases hcalling : s.calling with
    | none => simp [hcalling] at h
    | some x =>
      simp only [hcalling] at h
      cases hcb : x.req.cb with
      | poll m i => simp [hcb] at h
      | write m reg v seq =>
        simp only [hcb] at h
        cases hrecord : s.inFlight (m, reg.key) with
        | none => simp [hrecord] at h
        | some record =>
          simp only [hrecord] at h
          split at h
          · cases h
          · next hleft =>
            cases h
            simp only [step, hcalling, Option.bind_eq_bind, Option.bind_some, fail, hcb, retry,
              hrecord, if_neg hleft]
            rfl
  | nextReq sent => cases h
  | finished failed => cases h
  | callbackReturns => cases h
  | emitted => cases h

end Masters

/-- What goes on when the log handler has returned. -/
inductive Interrupted where
  /-- `Execute` makes room in a full queue for this request. -/
  | overflow (op : Op) (req : Request Callback)
  /-- This request's callback, which was called with an error, does what it does. -/
  | callback (x : Issued Callback)
  /-- A callback that did not retry returns. -/
  | ended

/-- The request that an interrupted call of `Execute` was given. -/
def Interrupted.request : Interrupted → Option (Request Callback)
  | .overflow _ req => some req
  | .callback _ => none
  | .ended => none

/-- A running log handler, with the number of calls of `Execute` that waited when it was called. -/
structure RunningHandler where
  interrupted : Interrupted
  waiting : ℕ

/-- The masters and the log handler, while it runs. -/
structure Logging where
  masters : Masters := {}
  handler : Option RunningHandler := none

namespace Logging

/-- What can happen. -/
inductive Action where
  /-- A step of the masters, during which no log handler is called. -/
  | run (a : Masters.Action)
  /-- A step of the masters comes to a call of `Execute` that logs an overflow. -/
  | overflow (a : Masters.Action)
  /-- The callback that runs next logs its error, or that it is going to retry. -/
  | failing
  /-- The callback that runs next does not retry and logs that. -/
  | givesUp
  /-- The log handler returns. -/
  | returns

/-- A step while the log handler runs: it may send a message when the calls of its last one are
over, and `Execute` does not log. -/
def inside (p : Plant) (s : Masters) (waiting : ℕ) : Masters.Action → Option Masters
  | .entry m k v valid =>
      if s.calling = none ∧ s.device.stack.length = waiting then s.enter p m k v valid else none
  | .callback => s.step p .callback
  | .callbackReturns =>
      if waiting < s.device.stack.length then s.step p .callbackReturns else none
  | _ => none

/-- The interrupted code goes on. -/
def resume (p : Plant) (s : Masters) : Interrupted → Option Masters
  | .overflow op req => s.overflow p op req
  | .callback x => some { s with calling := some x }
  | .ended => some s

/-- One step. -/
def step (p : Plant) (s : Logging) (a : Action) : Option Logging :=
  match s.handler, a with
  | none, .run a => (s.masters.step p a).map fun t => { masters := t }
  | none, .overflow a =>
      match s.masters.requested p a with
      | none => none
      | some (t, op, req) =>
          if t.device.Overflows p.device op then
            some { masters := t
                   handler := some { interrupted := .overflow op req
                                     waiting := t.device.stack.length } }
          else none
  | none, .failing =>
      s.masters.calling.map fun x =>
        { masters := { s.masters with calling := none }
          handler := some { interrupted := .callback x
                            waiting := s.masters.device.stack.length } }
  | none, .givesUp =>
      if s.masters.calling.isSome ∧ s.masters.retrying.isNone then
        some { masters := { s.masters with calling := none }
               handler := some { interrupted := .ended
                                 waiting := s.masters.device.stack.length } }
      else none
  | some h, .run a =>
      (inside p s.masters h.waiting a).map fun t => { masters := t, handler := some h }
  | some h, .returns =>
      if s.masters.calling = none ∧ s.masters.device.stack.length = h.waiting then
        (resume p s.masters h.interrupted).map fun t => { masters := t }
      else none
  | _, _ => none

/-- The requests of the calls of `Execute` that are under way. -/
def executing (s : Logging) : List (Request Callback) :=
  (s.handler.bind fun h => h.interrupted.request).toList ++
    s.masters.device.stack.map fun f => f.pending.req

end Logging

end Radapter.Modbus
