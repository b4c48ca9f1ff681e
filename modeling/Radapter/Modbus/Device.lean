import Mathlib.Logic.Function.Basic
import Radapter.Library.Runs
import Radapter.Modbus.Poll

/-!
# The request queues of a Modbus device

`MasterDevice` keeps a queue of writes and one of reads and sends one request at a time. A call
of `Execute` on a full queue takes one request out: it first calls that request's callback with
an error, while the request is still in the queue, then removes the first or last request,
whichever that is by then, and appends its own. The callback may call `Execute` again, so a call
is split here at the callback, and the calls that wait for one form a stack.

What a callback does is up to the caller, so requests carry data of an arbitrary type for it.
Log calls have no effect on the device and are left out, and so is the state of the connection:
without it `nextReq` is not called, and replies still finish.
-/

namespace Radapter.Modbus

/-- `MasterDevice::Op`. -/
inductive Op where
  | op_read
  | op_write
  deriving DecidableEq, Repr

/-- `OverflowBehaviour`. -/
inductive OverflowBehaviour where
  | pop_last
  | pop_first
  deriving DecidableEq, Repr

/-- `Device`, the part of a device's configuration that the queues use. -/
structure Device where
  max_write_queue : BitVec 32 := 100
  max_read_queue : BitVec 32 := 50
  on_read_overflow : OverflowBehaviour := .pop_first
  on_write_overflow : OverflowBehaviour := .pop_first

/-- The limit of a queue, `int(max)`. -/
def Device.limit (config : Device) : Op → ℤ
  | .op_read => config.max_read_queue.toInt
  | .op_write => config.max_write_queue.toInt

/-- The overflow mode of a queue, `on_over`. -/
def Device.onOver (config : Device) : Op → OverflowBehaviour
  | .op_read => config.on_read_overflow
  | .op_write => config.on_write_overflow

/-- The request whose callback an overflow calls: `front()` or `back()`. -/
def OverflowBehaviour.victim {α : Type*} (mode : OverflowBehaviour) (q : List α) : Option α :=
  match mode with
  | .pop_first => q.head?
  | .pop_last => q.getLast?

/-- What an overflow leaves of a queue: `pop_front()` or `pop_back()`. -/
def OverflowBehaviour.pop {α : Type*} (mode : OverflowBehaviour) (q : List α) : List α :=
  match mode with
  | .pop_first => q.tail
  | .pop_last => q.dropLast

/-- `Request`; a context is the number of the object behind the `QPointer`. -/
structure Request (γ : Type*) where
  ctx : ℕ
  slave_id : ℤ := 0
  unit : QModbusDataUnit
  cb : γ
  deriving DecidableEq

/-- A request given to `Execute`: the how manieth, and for which queue. -/
structure Issued (γ : Type*) where
  id : ℕ
  op : Op
  req : Request γ
  deriving DecidableEq

/-- A call of `Execute` that waits for the callback of `victim` to return. -/
structure Overflow (γ : Type*) where
  pending : Issued γ
  victim : Issued γ

/-- A callback that was called, with an error or with a result. -/
structure Call (γ : Type*) where
  request : Issued γ
  failed : Bool

/-- `MasterDevice`: the queues `reads` and `writes`, the request that awaits its reply (`busy` is
set while there is one), the waiting calls, innermost first, and what has happened so far.
`dropped` are the requests that were answered after their context was gone. `touchedEmpty` is set
when an overflow reaches for a request of an empty queue, which ends the run. -/
structure MasterDevice (γ : Type*) where
  queue : Op → List (Issued γ) := fun _ => []
  flight : Option (Issued γ) := none
  stack : List (Overflow γ) := []
  destroyed : List ℕ := []
  issued : List (Issued γ) := []
  sent : List (Issued γ) := []
  called : List (Call γ) := []
  dropped : List (Issued γ) := []
  touchedEmpty : Bool := false

namespace MasterDevice

variable {γ : Type*}

/-- Replace the queue of an operation. -/
def setQueue (d : MasterDevice γ) (op : Op) (q : List (Issued γ)) : MasterDevice γ :=
  { d with queue := Function.update d.queue op q }

/-- The queue that is set is the new one. -/
@[simp] theorem queue_setQueue_self (d : MasterDevice γ) (op : Op) (q : List (Issued γ)) :
    (d.setQueue op q).queue op = q :=
  Function.update_self ..

/-- The other queue stays. -/
theorem queue_setQueue_ne (d : MasterDevice γ) {op other : Op} (h : other ≠ op)
    (q : List (Issued γ)) : (d.setQueue op q).queue other = d.queue other :=
  Function.update_of_ne h ..

/-- What stands in a queue after one of the two has been replaced. -/
theorem mem_queue_setQueue {d : MasterDevice γ} {op other : Op} {q : List (Issued γ)}
    {x : Issued γ} (hx : x ∈ (d.setQueue op q).queue other) :
    (other = op ∧ x ∈ q) ∨ (other ≠ op ∧ x ∈ d.queue other) := by
  by_cases hop : other = op
  · subst hop
    exact .inl ⟨rfl, by rwa [queue_setQueue_self] at hx⟩
  · exact .inr ⟨hop, by rwa [queue_setQueue_ne d hop] at hx⟩

/-- The overflow test `q.size() >= int(max)`. -/
def Overflows (config : Device) (d : MasterDevice γ) (op : Op) : Prop :=
  config.limit op ≤ (d.queue op).length

instance (config : Device) (d : MasterDevice γ) (op : Op) : Decidable (d.Overflows config op) :=
  inferInstanceAs (Decidable (_ ≤ _))

/-- `Execute`, until it returns or waits for the callback of an overflow. -/
def Execute (config : Device) (d : MasterDevice γ) (op : Op) (req : Request γ) : MasterDevice γ :=
  let x : Issued γ := { id := d.issued.length, op := op, req := req }
  let d := { d with issued := d.issued ++ [x] }
  if d.Overflows config op then
    match (config.onOver op).victim (d.queue op) with
    | none => { d with touchedEmpty := true }
    | some v =>
        { d with
          called := d.called ++ [{ request := v, failed := true }]
          stack := { pending := x, victim := v } :: d.stack }
  else d.setQueue op (d.queue op ++ [x])

/-- The rest of `Execute` once the callback of an overflow has returned. -/
def callbackReturns (config : Device) (d : MasterDevice γ) : Option (MasterDevice γ) :=
  match d.stack with
  | [] => none
  | f :: rest =>
      let op := f.pending.op
      if (d.queue op).isEmpty then some { d with touchedEmpty := true }
      else
        some (({ d with stack := rest } : MasterDevice γ).setQueue op
          ((config.onOver op).pop (d.queue op) ++ [f.pending]))

/-- `nextReq`: writes go before reads. `sent` says whether the client accepts the request. -/
def nextReq (d : MasterDevice γ) (sent : Bool) : MasterDevice γ :=
  if d.flight.isSome then d
  else
    match d.queue .op_write, d.queue .op_read with
    | x :: rest, _ => send (d.setQueue .op_write rest) x
    | [], x :: rest => send (d.setQueue .op_read rest) x
    | [], [] => d
where
  /-- The request is sent, or its callback is called with an error. -/
  send (d : MasterDevice γ) (x : Issued γ) : MasterDevice γ :=
    if sent then { d with flight := some x, sent := d.sent ++ [x] }
    else { d with called := d.called ++ [{ request := x, failed := true }] }

/-- The reply of the request in flight has finished. -/
def finished (d : MasterDevice γ) (failed : Bool) : Option (MasterDevice γ) :=
  match d.flight with
  | none => none
  | some x =>
      if x.req.ctx ∈ d.destroyed then
        some { d with flight := none, dropped := d.dropped ++ [x] }
      else
        some { d with
          flight := none
          called := d.called ++ [{ request := x, failed := failed }] }

/-- What can happen to a device. -/
inductive Action (γ : Type*) where
  | execute (op : Op) (req : Request γ)
  | callbackReturns
  | nextReq (sent : Bool)
  | finished (failed : Bool)
  | destroy (ctx : ℕ)

/-- One step of a device. Callbacks run to their end, so timers and replies wait while a call of
`Execute` does. -/
def step (config : Device) (d : MasterDevice γ) (a : Action γ) : Option (MasterDevice γ) :=
  if d.touchedEmpty then none
  else
    match a with
    | .execute op req => some (d.Execute config op req)
    | .callbackReturns => d.callbackReturns config
    | .nextReq sent => if d.stack.isEmpty then some (d.nextReq sent) else none
    | .finished failed => if d.stack.isEmpty then d.finished failed else none
    | .destroy ctx => some { d with destroyed := ctx :: d.destroyed }

/-- The number of times a request's callback was called. -/
def calls [DecidableEq γ] (d : MasterDevice γ) (x : Issued γ) : ℕ :=
  (d.called.map Call.request).count x

/-- The number of places a request is kept in: its queue, the request in flight, and the
arguments of waiting calls. -/
def places [DecidableEq γ] (d : MasterDevice γ) (x : Issued γ) : ℕ :=
  (d.queue x.op).count x + d.flight.toList.count x + (d.stack.map Overflow.pending).count x

/-- No request is lost, none is called back twice, and no overflow found its queue empty. A
request whose callback an overflow is calling is still in its queue. -/
def Accounted [DecidableEq γ] (d : MasterDevice γ) : Prop :=
  d.touchedEmpty = false ∧ ∀ x ∈ d.issued, x.req.ctx ∉ d.destroyed →
    (d.calls x = 0 ∧ d.places x = 1) ∨ (d.calls x = 1 ∧ d.places x = 0) ∨
      (d.calls x = 1 ∧ (d.queue x.op).count x = 1 ∧ d.places x = 1 ∧
        x ∈ d.stack.map Overflow.victim)

/-- The condition on a step: `Execute` is called on a queue with a limit from 1 to `2 ^ 31 - 1`,
and not from inside an overflow callback of the same queue. -/
def Safe (config : Device) (d : MasterDevice γ) : Action γ → Prop
  | .execute op _ => 0 < config.limit op ∧ ∀ f ∈ d.stack, f.pending.op ≠ op
  | _ => True

instance (config : Device) (d : MasterDevice γ) : (a : Action γ) → Decidable (d.Safe config a)
  | .execute op _ =>
      inferInstanceAs (Decidable (0 < config.limit op ∧ ∀ f ∈ d.stack, f.pending.op ≠ op))
  | .callbackReturns => isTrue trivial
  | .nextReq _ => isTrue trivial
  | .finished _ => isTrue trivial
  | .destroy _ => isTrue trivial

end MasterDevice

end Radapter.Modbus
