import Radapter.Library.Assoc
import Radapter.Library.Runs
import Mathlib.Data.Int.Notation
import Mathlib.Logic.Function.Basic

/-!
# References to Lua values

What the C++ side keeps of a Lua value is a number, the key of the value in Lua's registry. A
`LuaValue` has one of its own, a timer keeps that of its userdata as its object name, a worker that
of its userdata too, and the instance that of the log handler. All keys come from one `luaL_ref`,
which may give the key of a value that has been given up to the next one: whoever gives up a key
twice, or uses it later, meets the value of another.

The actions are what may happen in any order, the callbacks of the timers with everything inside
them included. The keys that `luaL_ref` gives are chosen from outside.
-/

namespace Radapter.Registry

open Library

/-- A Lua value that is not nil. -/
abbrev Obj := ℕ

def LUA_REFNIL : ℤ := -1

def LUA_NOREF : ℤ := -2

/-- The references of the registry. `misused` is set where a key is given up that is not in use, a
null state is used, or a timer after its userdata has been collected. -/
structure Table where
  cells : List (ℕ × Obj) := []
  misused : Bool := false
  deriving DecidableEq

namespace Table

/-- `luaL_ref`: a key that is not in use. For nil there is one that is nobody's. -/
def luaL_ref (t : Table) (x : Option Obj) (key : ℕ) : Option (Table × ℤ) :=
  match x with
  | none => some (t, LUA_REFNIL)
  | some x =>
      if t.cells.lookup key = none then some ({ t with cells := Assoc.put key x t.cells }, key)
      else none

/-- `luaL_unref`, which leaves negative references. -/
def luaL_unref (t : Table) : ℤ → Table
  | .ofNat key =>
      if t.cells.lookup key = none then { t with misused := true }
      else { t with cells := Assoc.erase key t.cells }
  | .negSucc _ => t

/-- `lua_rawgeti` on the registry. -/
def lua_rawgeti (t : Table) : ℤ → Option Obj
  | .ofNat key => t.cells.lookup key
  | .negSucc _ => none

end Table

/-! ## Values -/

/-- `LuaValue`, and `LuaFunction` with it. `L` says whether the state is not null. -/
structure LuaValue where
  L : Bool := false
  ref : ℤ := LUA_NOREF
  deriving DecidableEq

namespace LuaValue

/-- `operator bool`. -/
def isValid (v : LuaValue) : Bool := v.L && v.ref ≠ LUA_NOREF

/-- The constructors from a value on the stack. -/
def ofStack (t : Table) (x : Option Obj) (key : ℕ) : Option (Table × LuaValue) := do
  let (t, ref) ← t.luaL_ref x key
  return (t, { L := true, ref })

/-- The copy constructor. -/
def copy (t : Table) (o : LuaValue) (key : ℕ) : Option (Table × LuaValue) :=
  if o.isValid then ofStack t (t.lua_rawgeti o.ref) key
  else some (t, { L := o.L, ref := LUA_NOREF })

/-- The destructor, which leaves `LuaValue{}`. -/
def destroy (t : Table) (v : LuaValue) : Table := if v.L then t.luaL_unref v.ref else t

/-- What a move leaves behind. -/
def moved (v : LuaValue) : LuaValue := { v with L := false }

/-- The copy assignment to another object. -/
def assign (t : Table) (v o : LuaValue) (key : ℕ) : Option (Table × LuaValue) :=
  if o.isValid then ofStack (v.destroy t) ((v.destroy t).lua_rawgeti o.ref) key
  else some (v.destroy t, {})

end LuaValue

/-! ## Owners -/

/-- A timer of `each` or `after`: its object name, the userdata that it lies in and the function
that it was made with, as the closure of its connection keeps it. -/
structure Timer where
  objectName : ℤ
  singleShot : Bool
  active : Bool := true
  userdata : Obj
  function : Obj
  f : LuaValue
  deriving DecidableEq

/-- The registry and all that has references to it: the `LuaValue` objects, by their places, the
timers with the number of callbacks of each that have not returned, the `workerSelfRef` of the
workers, and the log handler. -/
structure State where
  table : Table := {}
  values : ℕ → LuaValue := fun _ => {}
  timers : ℕ → Option Timer := fun _ => none
  calling : ℕ → ℕ := fun _ => 0
  workers : ℕ → Option ℤ := fun _ => none
  luaLogHandler : ℤ := LUA_NOREF

/-- What may happen. The last number of an action that makes references is the key it is given. -/
inductive Action where
  /-- A `LuaValue` is made of a value on the stack, or of the main state's globals. -/
  | construct (i : ℕ) (x : Option Obj) (key : ℕ)
  | copy (i j : ℕ) (key : ℕ)
  | move (i j : ℕ)
  | assign (i j : ℕ) (key : ℕ)
  | assignMove (i j : ℕ)
  | destroy (i : ℕ)
  /-- `each` or `after`. -/
  | timer (t : ℕ) (oneshot : Bool) (userdata function : Obj) (self key : ℕ)
  /-- `stopTimer`, on a userdata that Lua has. -/
  | stopTimer (t : ℕ)
  /-- The timer calls its function: the call has a copy of it in place `i`. -/
  | timeout (t i : ℕ) (key : ℕ)
  /-- The closure goes on behind the call. -/
  | returned (t : ℕ)
  /-- An exception leaves the closure. -/
  | raised (t : ℕ)
  /-- The userdata of a timer is collected, which nothing in the registry refers to. -/
  | collect (t : ℕ)
  /-- `Shutdown` stops the timers. -/
  | shutdown
  | push_worker (w : ℕ) (userdata : Obj) (key : ℕ)
  /-- `QObject::destroyed` of a worker. -/
  | destroyed (w : ℕ)
  /-- `worker_notify` makes a value of the worker's userdata. -/
  | worker_notify (w i : ℕ) (key : ℕ)
  | log_handler (x : Option Obj) (key : ℕ)
  /-- `Log` takes the handler that it calls. -/
  | log (i : ℕ) (key : ℕ)

namespace State

/-- A place of a `LuaValue`. -/
def setValue (s : State) (i : ℕ) (v : LuaValue) : State :=
  { s with values := Function.update s.values i v }

def setTimer (s : State) (t : ℕ) (timer : Option Timer) : State :=
  { s with timers := Function.update s.timers t timer }

/-- An object is made where there is none. -/
def vacant (s : State) (i : ℕ) : Prop := (s.values i).L = false

instance (s : State) (i : ℕ) : Decidable (s.vacant i) :=
  inferInstanceAs (Decidable ((s.values i).L = false))

/-- A new object of the value of a reference. -/
def take (s : State) (i : ℕ) (x : Option Obj) (key : ℕ) : Option State :=
  if s.vacant i then do
    let (table, v) ← LuaValue.ofStack s.table x key
    return { s with table }.setValue i v
  else none

/-- `timer`. -/
def startTimer (s : State) (t : ℕ) (oneshot : Bool) (userdata function : Obj) (self key : ℕ) :
    Option State :=
  match s.timers t with
  | some _ => none
  | none => do
      let (table, ref) ← s.table.luaL_ref (some userdata) self
      let (table, f) ← LuaValue.ofStack table (some function) key
      return { s with table }.setTimer t (some
        { objectName := ref, singleShot := oneshot, userdata, function, f })

/-- `stopTimer`. -/
def stopTimer (s : State) (t : ℕ) : Option State :=
  match s.timers t with
  | none => none
  | some timer =>
      some ({ s with table := s.table.luaL_unref timer.objectName }.setTimer t
        (some { timer with active := false, objectName := LUA_NOREF }))

/-- The closure of a timer up to the call of its function, which raises if it is not valid. -/
def timeout (s : State) (t i : ℕ) (key : ℕ) : Option State :=
  match s.timers t with
  | none => none
  | some timer =>
      if timer.active ∧ s.vacant i then
        if timer.f.isValid then do
          let (table, v) ← LuaValue.copy s.table timer.f key
          let s := ({ s with table }.setValue i v).setTimer t
            (some { timer with active := !timer.singleShot })
          return { s with calling := Function.update s.calling t (s.calling t + 1) }
        else
          some (s.setTimer t (some { timer with active := !timer.singleShot }))
      else none

/-- The closure of a timer behind the call. -/
def afterCall (s : State) (t : ℕ) : State :=
  match s.timers t with
  | none => { s with table := { s.table with misused := true } }
  | some timer =>
      if timer.singleShot then
        if 0 ≤ timer.objectName ∧ timer.f.L = false then
          { s with table := { s.table with misused := true } }
        else
          { s with table := timer.f.destroy (s.table.luaL_unref timer.objectName) }.setTimer t
            (some { timer with objectName := LUA_NOREF, f := {} })
      else s

/-- One of the callbacks of a timer is over. -/
def ended (s : State) (t : ℕ) : State :=
  { s with calling := Function.update s.calling t (s.calling t - 1) }

/-- The destructors of a timer and of its closure. -/
def collect (s : State) (t : ℕ) : Option State :=
  match s.timers t with
  | none => none
  | some timer =>
      if s.table.cells.all (fun e => e.2 ≠ timer.userdata) then
        some ({ s with table := timer.f.destroy s.table }.setTimer t none)
      else none

/-- One step of the program. -/
def step (s : State) : Action → Option State
  | .construct i x key => s.take i x key
  | .copy i j key =>
      if s.vacant i then do
        let (table, v) ← LuaValue.copy s.table (s.values j) key
        return { s with table }.setValue i v
      else none
  | .move i j =>
      if s.vacant i ∧ i ≠ j then
        some ((s.setValue i (s.values j)).setValue j (s.values j).moved)
      else none
  | .assign i j key =>
      if i = j then some s
      else do
        let (table, v) ← LuaValue.assign s.table (s.values i) (s.values j) key
        return { s with table }.setValue i v
  | .assignMove i j =>
      if i = j then some s
      else
        some (({ s with table := (s.values i).destroy s.table }.setValue i (s.values j)).setValue j
          (s.values j).moved)
  | .destroy i => some ({ s with table := (s.values i).destroy s.table }.setValue i {})
  | .timer t oneshot userdata function self key =>
      s.startTimer t oneshot userdata function self key
  | .stopTimer t => s.stopTimer t
  | .timeout t i key => s.timeout t i key
  | .returned t => if s.calling t = 0 then none else some ((s.afterCall t).ended t)
  | .raised t => if s.calling t = 0 then none else some (s.ended t)
  | .collect t => s.collect t
  | .shutdown =>
      some { s with
        timers := fun t => (s.timers t).map fun timer => { timer with active := false } }
  | .push_worker w userdata key =>
      match s.workers w with
      | some _ => none
      | none => do
          let (table, ref) ← s.table.luaL_ref (some userdata) key
          return { s with table, workers := Function.update s.workers w (some ref) }
  | .destroyed w =>
      match s.workers w with
      | none => none
      | some ref =>
          some { s with
            table := s.table.luaL_unref ref
            workers := Function.update s.workers w none }
  | .worker_notify w i key =>
      match s.workers w with
      | none => none
      | some ref => s.take i (s.table.lua_rawgeti ref) key
  | .log_handler x key =>
      match x with
      | none =>
          some { s with
            table := s.table.luaL_unref s.luaLogHandler
            luaLogHandler := LUA_NOREF }
      | some x => do
          let (table, ref) ← (s.table.luaL_unref s.luaLogHandler).luaL_ref (some x) key
          return { s with table, luaLogHandler := ref }
  | .log i key =>
      if s.luaLogHandler ≠ LUA_NOREF then s.take i (s.table.lua_rawgeti s.luaLogHandler) key
      else none

end State

end Radapter.Registry
