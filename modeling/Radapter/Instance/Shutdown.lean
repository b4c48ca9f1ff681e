import Radapter.Fibers.Pool

/-!
# How an instance is shut down

`Instance::Shutdown` logs a warning, calls the handlers that were registered for it, asks the
workers to go, and starts a timer. When the last worker is gone the fiber pool is stopped, and
`ShutdownDone` is emitted; it is emitted by the timer otherwise.

A handler is a closure that is given to the fiber pool, and so is the log handler that gets the
warning. When `Shutdown` was called on a fiber the handler runs on that one and may leave it in an
`await`, with `Shutdown` in the middle of its loop, while the event loop goes on. So `Shutdown` is
not one step: it has a step for the warning, for each handler and for each worker.

No handler is registered while the handlers are called. The loop of the source runs over a vector
that would grow, and when its items move the loop ends with an error, with handlers uncalled and no
worker asked.
-/

namespace Radapter.Instance

open Library Fibers

/-- Workers in the order of their creation, which is the order of their connections. -/
abbrev WorkerId := ℕ

/-- Handlers in the order of their registration. -/
abbrev HandlerId := ℕ

/-- How far `Shutdown` has come: it logs its warning, or it has still to call some handlers, or
`ShutdownRequest` has still to reach some workers. -/
inductive Sequence where
  | notCalled
  | warning
  | handlers (rest : List HandlerId)
  | request (rest : List WorkerId)
  | returned
  deriving DecidableEq, Repr

namespace Sequence

/-- `Shutdown` was called and has not returned. -/
def underWay : Sequence → Bool
  | .notCalled => false
  | .warning => true
  | .handlers _ => true
  | .request _ => true
  | .returned => false

/-- A worker that is destroyed is disconnected from the signal. -/
def disconnect (w : WorkerId) : Sequence → Sequence
  | .notCalled => .notCalled
  | .warning => .warning
  | .handlers rest => .handlers rest
  | .request rest => .request (rest.erase w)
  | .returned => .returned

end Sequence

/-- How far `emitDoneWhenIdle` has come: it is in the event loop of `Stop`, or after that. -/
inductive Stopping where
  | no
  | waiting
  | tearing
  deriving DecidableEq, Repr

/-- What can be observed of a shutdown. -/
inductive Note where
  | handler (h : HandlerId) (c : ClosureId)
  | Destroy (w : WorkerId)
  | Stop
  | ShutdownDone
  deriving DecidableEq, Repr

/-- `Instance::Impl`, as far as the shutdown goes, with the part of the event loop that belongs to
it. `leaving` has the workers whose deletion is posted and `idle` counts the calls of
`emitDoneWhenIdle` that are; `timer` says whether the timer of `Shutdown` runs. The caller of
`Shutdown` is a fiber with some closures on it, or the event loop. -/
structure Impl where
  fibers : FiberPool
  workers : List WorkerId
  leaving : Finset WorkerId
  created : ℕ
  shutdownHandlers : List HandlerId
  registered : ℕ
  sequence : Sequence
  caller : Option (FiberId × ℕ)
  shutdown : Bool
  shutdownDone : Bool
  shutdownIdleArmed : Bool
  timer : Bool
  idle : ℕ
  stopping : Stopping
  log : List Note

namespace Impl

/-- A new instance. -/
def new (pooledFibers : ℕ) : Impl :=
  ⟨.new pooledFibers, [], ∅, 0, [], 0, .notCalled, none, false, false, false, false, 0, .no, []⟩

/-- Notes an event. -/
def note (d : Impl) (event : Note) : Impl := { d with log := d.log ++ [event] }

/-! ## Control -/

/-- `Shutdown` is under way and has control: the closures that it called on the fiber are over. -/
def inShutdown (d : Impl) : Prop :=
  d.sequence.underWay = true ∧
    d.fibers.Current.map (fun f => (f, (d.fibers.fibers f).frames.length)) = d.caller

/-- The event loop can take its next turn. While `Stop` waits this is the nested loop. -/
def loopFree (d : Impl) : Prop :=
  d.fibers.stepping = none ∧ d.stopping ≠ .tearing ∧
    ¬ (d.sequence.underWay = true ∧ d.caller = none)

instance (d : Impl) : Decidable d.inShutdown := inferInstanceAs (Decidable (_ ∧ _))

instance (d : Impl) : Decidable d.loopFree := inferInstanceAs (Decidable (_ ∧ _ ∧ ¬ (_ ∧ _)))

/-! ## Workers and handlers -/

/-- The slot of `WorkerCreated`. -/
def WorkerCreated (d : Impl) : Impl :=
  { d with workers := d.workers ++ [d.created], created := d.created + 1 }

/-- The deletion of a worker is posted. -/
def deleteLater (d : Impl) (w : WorkerId) : Impl := { d with leaving := insert w d.leaving }

/-- `Worker::Destroy` as a slot of `ShutdownRequest`. It emits the `ShutdownDone` of the worker,
which is connected to `deleteLater`. -/
def Destroy (d : Impl) (w : WorkerId) : Impl := (d.note (.Destroy w)).deleteLater w

/-- The slot of `QObject::destroyed`. -/
def destroyed (d : Impl) (w : WorkerId) : Impl :=
  let workers := d.workers.erase w
  { d with
    workers
    leaving := d.leaving.erase w
    sequence := d.sequence.disconnect w
    idle := if workers = [] ∧ d.shutdown = true then d.idle + 1 else d.idle }

/-- `Impl::onShutdown`. -/
def onShutdown (d : Impl) : Impl :=
  { d with
    shutdownHandlers := d.shutdownHandlers ++ [d.registered]
    registered := d.registered + 1 }

/-! ## The shutdown -/

/-- `Instance::Shutdown`, up to the warning that it logs. A log handler is then a closure that the
pool is given, and may register handlers. -/
def Shutdown (d : Impl) : Impl :=
  if d.shutdown then d
  else
    { d with
      shutdown := true
      sequence := .warning
      caller := d.fibers.Current.map (fun f => (f, (d.fibers.fibers f).frames.length)) }

/-- `Instance::Shutdown` starts its loop over the handlers, calls the next handler or reaches the
next worker. Nothing that a handler throws ends the loop. -/
def proceed (d : Impl) : Option Impl :=
  match d.sequence with
  | .warning => some { d with sequence := .handlers d.shutdownHandlers }
  | .handlers (h :: rest) =>
      some { d.note (.handler h d.fibers.given) with
        fibers := d.fibers.Run, sequence := .handlers rest }
  | .handlers [] => some { d with shutdownHandlers := [], sequence := .request d.workers }
  | .request (w :: rest) => some { d.Destroy w with sequence := .request rest }
  | .request [] =>
      some { d with
        timer := true
        idle := if d.workers = [] then d.idle + 1 else d.idle
        sequence := .returned }
  | _ => none

/-- `ShutdownDone` is emitted, unless it was. -/
def emitDone (d : Impl) : Impl :=
  if d.shutdownDone then d else { d.note .ShutdownDone with shutdownDone := true }

/-- `emitDoneWhenIdle`, up to the event loop in `Stop`. -/
def emitDoneWhenIdle (d : Impl) : Impl :=
  if d.shutdownIdleArmed then d
  else { d.note .Stop with shutdownIdleArmed := true, stopping := .waiting }

end Impl

/-! ## Steps -/

/-- What happens next. A closure or a device acts on the pool or on the workers, `Shutdown` goes on,
or it is the turn of the event loop. -/
inductive Action where
  | fiber (a : Fibers.Action)
  | WorkerCreated
  | deleteLater (w : WorkerId)
  | onShutdown
  | Shutdown
  | proceed
  | destroyed (w : WorkerId)
  | timeout
  | idle
  | stop (order : List FiberId)
  | done
  deriving DecidableEq, Repr

/-- When the pool can take a step by itself. A closure that has called `Shutdown` neither waits nor
is left before that returns. -/
def Impl.admits (d : Impl) : Fibers.Action → Prop
  | .Run => d.fibers.stepping ≠ none ∨ d.stopping ≠ .tearing
  | .await => ¬ d.inShutdown
  | .leave _ => ¬ d.inShutdown
  | .settle _ _ => True
  | .dispatch => d.loopFree
  | .Stop _ => False

instance Impl.decidableAdmits (d : Impl) : (a : Fibers.Action) → Decidable (d.admits a)
  | .Run => inferInstanceAs (Decidable (_ ∨ _))
  | .await => inferInstanceAs (Decidable (¬ _))
  | .leave _ => inferInstanceAs (Decidable (¬ _))
  | .settle _ _ => isTrue trivial
  | .dispatch => inferInstanceAs (Decidable d.loopFree)
  | .Stop _ => isFalse id

/-- One step, where it can happen. A handler is not registered while the handlers are called. -/
def step (d : Impl) : Action → Option Impl
  | .fiber a =>
      if d.admits a then (Fibers.step d.fibers a).map (fun fibers => { d with fibers }) else none
  | .WorkerCreated => some d.WorkerCreated
  | .deleteLater w => if w ∈ d.workers then some (d.deleteLater w) else none
  | .onShutdown =>
      match d.sequence with
      | .handlers _ => none
      | _ => some d.onShutdown
  | .Shutdown => some d.Shutdown
  | .proceed => if d.inShutdown then d.proceed else none
  | .destroyed w => if d.loopFree ∧ w ∈ d.leaving then some (d.destroyed w) else none
  | .timeout =>
      if d.loopFree ∧ d.timer = true then some { d.emitDone with timer := false } else none
  | .idle =>
      if d.loopFree ∧ 0 < d.idle then some { d with idle := d.idle - 1 }.emitDoneWhenIdle else none
  | .stop order =>
      if d.loopFree ∧ d.stopping = .waiting then
        (Fibers.step d.fibers (.Stop order)).map
          (fun fibers => { d with fibers, stopping := .tearing })
      else none
  | .done =>
      if d.stopping = .tearing ∧ d.fibers.stepping = none then
        some { d.emitDone with stopping := .no }
      else none

end Radapter.Instance
