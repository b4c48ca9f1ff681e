import Mathlib.Data.Finset.Basic
import Radapter.Library.Runs

/-!
# The fiber pool

Closures are run on fibers, which are coroutines that can be left in an `await` and are resumed by
the event loop when the signal they wait for is settled. The pool keeps some finished fibers for
the next closures, and tears down those that are still in an `await` when it is stopped.

What a closure does is not part of the pool: a step of the system is one thing that the closure in
control does, one turn of the event loop, or the settling of a signal. The event loop has no turn
while a closure is in control.
-/

namespace Radapter.Fibers

/-- Fibers in the order of their creation. -/
abbrev FiberId := ℕ

/-- Closures in the order in which they were given to `Run`. -/
abbrev ClosureId := ℕ

/-- What a closure can throw: a forced shutdown, another `std::exception`, or anything else. -/
inductive Exc where
  | ForcedShutdown
  | std (what : String)
  | nonStandard
  deriving DecidableEq, Repr

/-- The message for an exception that nobody catches. -/
def Exc.message : Exc → String
  | .ForcedShutdown => "Unhandled error in fiber: Forced shutdown"
  | .std what => "Unhandled error in fiber: " ++ what
  | .nonStandard => "Unhandled non-standard exception in fiber"

/-- `Fiber::Impl`. `pool` and `step` say whether there is a pool and a coroutine. The frames are the
closures under way on the coroutine, the innermost first. -/
structure Fiber where
  pool : Bool
  step : Bool
  busy : Bool
  unwind : Bool
  exc : Option Exc
  closure : Option ClosureId
  frames : List ClosureId
  deriving DecidableEq, Repr

/-- A new fiber: the coroutine waits for its first closure. -/
def Fiber.new : Fiber := ⟨true, true, true, false, none, none, []⟩

/-- The exception that a fiber keeps when its closure is left with an exception or without. -/
def Fiber.caught (fiber : Fiber) : Option Exc → Option Exc
  | none => fiber.exc
  | some .ForcedShutdown => fiber.exc
  | some e => some e

/-- What can be observed of a pool. The release and the giving up of fibers are noted as well. -/
inductive Event where
  | executed (c : ClosureId) (f : FiberId)
  | dropped (c : ClosureId)
  | resumed (f : FiberId)
  | released (f : FiberId)
  | gaveUp (f : FiberId)
  | idle
  | thrown (e : Exc)
  | Error (message : String)
  deriving DecidableEq, Repr

/-- `FiberPool`, with its fibers and the part of the event loop that belongs to them. `stepping` is
the fiber in control, with the flag that `afterStep` gets; `signals` has the fibers whose signal is
not settled, `posted` the resumptions that wait for their turn, and `stragglers` the fibers that
`Stop` has still to tear down. -/
structure FiberPool where
  pooledFibers : ℕ
  parked : List FiberId
  flying : Finset FiberId
  fibers : FiberId → Fiber
  created : ℕ
  stepping : Option (FiberId × Bool)
  signals : Finset FiberId
  posted : List (FiberId × Option Exc)
  stragglers : List FiberId
  given : ℕ
  log : List Event

namespace FiberPool

/-- A new pool. -/
def new (pooledFibers : ℕ) : FiberPool :=
  ⟨pooledFibers, [], ∅, fun _ => .new, 0, none, ∅, [], [], 0, []⟩

/-- `t_current`. -/
def Current (s : FiberPool) : Option FiberId := s.stepping.map Prod.fst

/-- Replaces a fiber. -/
def setFiber (s : FiberPool) (f : FiberId) (fiber : Fiber) : FiberPool :=
  { s with fibers := fun g => if g = f then fiber else s.fibers g }

/-- Notes an event. -/
def note (s : FiberPool) (event : Event) : FiberPool := { s with log := s.log ++ [event] }

/-! ## Steps of a fiber -/

/-- `returnFiber`. A fiber that is not parked is gone when its last step returns. -/
def returnFiber (s : FiberPool) (f : FiberId) : FiberPool :=
  let s :=
    if s.parked.length < s.pooledFibers then { s with parked := s.parked ++ [f] }
    else s.note (.released f)
  let s := { s with flying := s.flying.erase f }
  if s.flying = ∅ then s.note .idle else s

/-- The end of `afterStep`: a pending exception goes to the caller of `Run`, or is logged. -/
def rethrow (s : FiberPool) (f : FiberId) (resumed : Bool) : FiberPool :=
  match (s.fibers f).exc with
  | none => s
  | some e =>
      (s.setFiber f { s.fibers f with exc := none }).note
        (if resumed then .Error e.message else .thrown e)

/-- `afterStep`. -/
def afterStep (s : FiberPool) (f : FiberId) (resumed : Bool) : FiberPool :=
  let s := if (s.fibers f).busy then s else s.returnFiber f
  if (s.fibers f).unwind then s.note (.thrown .ForcedShutdown) else s.rethrow f resumed

/-- The coroutine yields: control goes back to `Run` or `resume`. -/
def yield (s : FiberPool) (f : FiberId) (resumed : Bool) : FiberPool :=
  { s with stepping := none }.afterStep f resumed

/-- `Fiber::Impl::await`. On a fiber that is unwinding it throws at once. -/
def await (s : FiberPool) (f : FiberId) (resumed : Bool) : FiberPool :=
  if (s.fibers f).unwind then s
  else { s with signals := insert f s.signals }.yield f resumed

/-- `Fiber::Impl::resume`: the `await` goes on, and throws the error it was resumed with. -/
def resume (s : FiberPool) (f : FiberId) (exc : Option Exc) : FiberPool :=
  let s := s.setFiber f { s.fibers f with exc }
  if (s.fibers f).step then
    { (s.setFiber f { s.fibers f with exc := none }).note (.resumed f) with
      stepping := some (f, true) }
  else s.note (.thrown (.std "bad optional access"))

/-! ## Giving closures -/

/-- The fiber for the next closure: the one that was parked last, or a new one. -/
def takeFiber (s : FiberPool) : FiberId × FiberPool :=
  match s.parked.getLast? with
  | none => (s.created, { s.setFiber s.created .new with created := s.created + 1 })
  | some f => (f, { s with parked := s.parked.dropLast })

/-- The coroutine takes its closure and calls it. -/
def enter (s : FiberPool) (f : FiberId) (c : ClosureId) : FiberPool :=
  (s.setFiber f { s.fibers f with busy := true, closure := none, frames := [c] }).note
    (.executed c f)

/-- A closure is started on a fiber of the pool. -/
def launch (s : FiberPool) (f : FiberId) (c : ClosureId) : FiberPool :=
  let s := { s with flying := insert f s.flying }
  let s := s.setFiber f { s.fibers f with closure := some c }
  if (s.fibers f).step then { s with stepping := some (f, false) }.enter f c
  else s.note (.thrown (.std "bad optional access"))

/-- A closure is called on the fiber in control, unless that is unwinding. -/
def inline (s : FiberPool) (f : FiberId) (c : ClosureId) : FiberPool :=
  if (s.fibers f).unwind then s.note (.dropped c)
  else
    (s.setFiber f { s.fibers f with frames := c :: (s.fibers f).frames }).note (.executed c f)

/-- `FiberPool::Run`. -/
def Run (s : FiberPool) : FiberPool :=
  let c := s.given
  let s := { s with given := s.given + 1 }
  match s.Current with
  | some f => s.inline f c
  | none =>
      let (f, s) := s.takeFiber
      s.launch f c

/-! ## Stopping -/

/-- The loop over the stragglers. The `await` that the fiber is in throws. -/
def tearDown (s : FiberPool) : FiberPool :=
  match s.stragglers with
  | [] => { s with stepping := none }
  | f :: rest =>
      { s.setFiber f { s.fibers f with pool := false, unwind := true } with
        stragglers := rest, stepping := some (f, false) }

/-- `FiberPool::Stop`, when it has waited long enough. The order of the stragglers is that of a set
of pointers. -/
def Stop (s : FiberPool) (order : List FiberId) : FiberPool :=
  { s with flying := ∅, stragglers := order, log := s.log ++ order.map Event.gaveUp }.tearDown

/-- The coroutine is left by its closure. One that is unwinding comes to its end, others yield. -/
def finish (s : FiberPool) (f : FiberId) (resumed : Bool) (e : Option Exc) : FiberPool :=
  let exc := (s.fibers f).caught e
  let s := s.setFiber f { s.fibers f with frames := [], busy := false, exc }
  if (s.fibers f).unwind then (s.setFiber f { s.fibers f with step := false }).tearDown
  else s.yield f resumed

/-- The innermost closure returns, or throws. The exception of a closure that was called by another
one goes on in that one. -/
def leave (s : FiberPool) (f : FiberId) (resumed : Bool) (e : Option Exc) : FiberPool :=
  match (s.fibers f).frames with
  | [] => s
  | [_] => s.finish f resumed e
  | _ :: frames => s.setFiber f { s.fibers f with frames }

/-! ## The event loop -/

/-- The signal that a fiber waits for is settled: its resumption is posted. -/
def settle (s : FiberPool) (f : FiberId) (res : Option Exc) : Option FiberPool :=
  if f ∈ s.signals then
    some { s with signals := s.signals.erase f, posted := s.posted ++ [(f, res)] }
  else none

/-- The next resumption. -/
def dispatch (s : FiberPool) : Option FiberPool :=
  match s.posted with
  | [] => none
  | (f, res) :: rest =>
      let s := { s with posted := rest }
      some (if (s.fibers f).pool then s.resume f res else s)

end FiberPool

/-- What happens next. The closure in control gives a closure to the pool, waits for a signal, or is
left; otherwise it is the turn of the event loop. A signal can be settled by anyone. -/
inductive Action where
  | Run
  | await
  | leave (e : Option Exc)
  | settle (f : FiberId) (res : Option Exc)
  | dispatch
  | Stop (order : List FiberId)
  deriving DecidableEq, Repr

/-- One step, where it can happen. -/
def step (s : FiberPool) : Action → Option FiberPool
  | .Run => some s.Run
  | .await => s.stepping.map (fun (f, resumed) => s.await f resumed)
  | .leave e => s.stepping.map (fun (f, resumed) => s.leave f resumed e)
  | .settle f res => s.settle f res
  | .dispatch => if s.stepping = none then s.dispatch else none
  | .Stop order =>
      if s.stepping = none ∧ order.Nodup ∧ order.toFinset = s.flying then some (s.Stop order)
      else none

end Radapter.Fibers
