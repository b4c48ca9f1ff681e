import Radapter.Library.Runs
import Radapter.Listeners.CallAll
import Mathlib.Logic.Function.Basic

/-!
# Chains of workers

`pipe` takes functions and workers and connects each of them to the next: a listener that calls
the next one is appended to the table that `get_listeners` of the one before it returns. What is
not a worker is wrapped in an anonymous one first. The function that `pipe` returns goes over the
connections of its call again and takes their listeners out of these tables.

The arguments are checked while the chain is being built. When one of them is refused, `pipe`
raises an error where it stands.
-/

namespace Radapter.Pipes

open Library

/-- The identity of a Lua table that holds listeners: the one of an anonymous worker that
`wrap_func` has made, or another. -/
inductive TableId where
  | given (id : ℕ)
  | wrapped (n : ℕ)
  deriving DecidableEq

/-- A table or a userdata: an anonymous worker of `wrap_func`, or another. -/
inductive Object where
  | given (id : ℕ)
  | wrapped (n : ℕ)
  deriving DecidableEq

/-- An argument of `pipe`. -/
inductive Value where
  | nil
  | function
  | object (o : Object)
  /-- A boolean, a number, a string or a thread. -/
  | scalar
  deriving DecidableEq

/-- What the field `get_listeners` of an object is to `pipe`. -/
inductive Member where
  /-- The field is `nil` or `false`. -/
  | absent
  /-- It returns `nil` or `false`. -/
  | refuses
  /-- It returns a table. -/
  | table (all : TableId)
  /-- It returns something else. -/
  | other
  /-- It cannot be read or called. -/
  | raises (err : String)
  deriving DecidableEq

/-- An entry of `subs`. -/
structure Sub where
  target : Object
  fn : ℕ
  deriving DecidableEq

/-- A connection that `connect` has made: the listener is in the table of `source` and calls
`ipipe`. -/
structure Connection where
  /-- The number of the call of `pipe`. -/
  pipe : ℕ
  source : Object
  ipipe : Object
  listener : ℕ
  deriving DecidableEq

/-- What the log of a run records. -/
inductive Event where
  | connected (c : Connection)
  | cancelled (pipe : ℕ)
  deriving DecidableEq

/-- The tables of listeners and the closures that refer to them. -/
structure State where
  /-- How many anonymous workers `wrap_func` has made. -/
  wrappers : ℕ
  /-- The entries of a table at the positions `1`, `2` and so on. -/
  listeners : TableId → List ℕ
  /-- How many listeners `connect` has made. No two of them are equal. -/
  closures : ℕ
  /-- For each call of `pipe` that has ended the upvalue `subs` of the function that it returned;
  none when it raised an error. -/
  cancels : List (Option (List Sub))
  log : List Event

/-- No call of `pipe` has been made. -/
def start : State := ⟨0, fun _ => [], 0, [], []⟩

variable (members : ℕ → Member)

/-- The field `get_listeners` of an object. An anonymous worker has a table of its own. -/
def memberOf : Object → Member
  | .given id => members id
  | .wrapped n => .table (.wrapped n)

/-- `wrap_func`: a new worker. -/
def wrap_func (s : State) : Object × State :=
  (.wrapped s.wrappers, { s with wrappers := s.wrappers + 1 })

/-- The worker that argument `i` stands for. -/
def toWorker (i : ℕ) (v : Value) (s : State) : Except String (Object × State) :=
  match v with
  | .function => .ok (wrap_func s)
  | .nil | .scalar => .error ("function, table or userdata expected at arg " ++ toString i)
  | .object o =>
      match memberOf members o with
      | .absent => .ok (wrap_func s)
      | .refuses => .error ("Pipe target #" ++ toString i ++ " is not Pipable")
      | .raises err => .error err
      | .table _ | .other => .ok (o, s)

/-- `connect`: a new listener is stored behind the last entry of the table of `target`. -/
def connect (s : State) (target ipipe : Object) : Except String (ℕ × State) :=
  match memberOf members target with
  | .table all =>
      .ok (s.closures,
        { s with
          listeners := Function.update s.listeners all (s.listeners all ++ [s.closures])
          closures := s.closures + 1
          log := s.log ++ [.connected ⟨s.cancels.length, target, ipipe, s.closures⟩] })
  | .absent => .error "attempt to call a nil value (method 'get_listeners')"
  | .refuses | .other => .error ":get_listeners() should return a table"
  | .raises err => .error err

/-- The local variables of `pipe`. -/
structure Locals where
  res : Option Object
  curr : Option Object
  subs : List Sub

/-- The loop of `pipe` over `ipairs(toPipe)`, from argument `i` on. It ends at the first `nil`. An
error leaves it in the middle, with the tables as they are. -/
def chain : ℕ → List Value → Locals → State → Except String Locals × State
  | _, [], l, s => (.ok l, s)
  | _, .nil :: _, l, s => (.ok l, s)
  | i, v :: rest, l, s =>
      match toWorker members i v s with
      | .error err => (.error err, s)
      | .ok (v, s) =>
          match l.curr with
          | none => chain (i + 1) rest ⟨l.res <|> some v, some v, l.subs⟩ s
          | some curr =>
              match connect members s curr v with
              | .error err => (.error err, s)
              | .ok (fn, s) =>
                  chain (i + 1) rest ⟨l.res <|> some v, some v, l.subs ++ [⟨curr, fn⟩]⟩ s

/-- `pipe`: the upvalue of the function that it returns, or the error that it raises. -/
def pipe (s : State) (args : List Value) : Except String (List Sub) × State :=
  if args.headD .nil = .nil then (.error "expected at least 1 argument", s)
  else
    match chain members 1 args ⟨none, none, []⟩ s with
    | (.error err, s) => (.error err, s)
    | (.ok l, s) =>
        if l.res = none then (.error "expected at least on param", s) else (.ok l.subs, s)

/-- The loop of `cancel`. A table is searched from its end and one entry is removed. The length
operator raises an error when there is no table. -/
def cancel : List Sub → State → Option State
  | [], s => some s
  | sub :: subs, s =>
      match memberOf members sub.target with
      | .table all =>
          cancel subs { s with
            listeners := Function.update s.listeners all
              (Listeners.removeLast (s.listeners all) sub.fn) }
      | _ => none

/-- What the scripts do: call `pipe`, or the function that a call of it returned. -/
inductive Action where
  | pipe (args : List Value)
  | cancel (pipe : ℕ)
  deriving DecidableEq

/-- One call. A function that has not been returned cannot be called. -/
def step (s : State) : Action → Option State
  | .pipe args =>
      match pipe members s args with
      | (.error _, t) => some { t with cancels := t.cancels ++ [none] }
      | (.ok subs, t) => some { t with cancels := t.cancels ++ [some subs] }
  | .cancel p =>
      match s.cancels[p]? with
      | some (some subs) =>
          (cancel members subs s).map (fun t => { t with log := t.log ++ [.cancelled p] })
      | _ => none

/-! ## The chain of a call -/

/-- The workers that the arguments of a call of `pipe` stand for, up to the first `nil`, when `n`
anonymous workers have been made before: each argument is a worker itself or gets a new one. -/
def workersOf : ℕ → List Value → List Object
  | _, [] => []
  | _, .nil :: _ => []
  | n, .object o :: rest =>
      if memberOf members o = .absent then .wrapped n :: workersOf (n + 1) rest
      else o :: workersOf n rest
  | n, _ :: rest => .wrapped n :: workersOf (n + 1) rest

/-- Each worker of a chain with the one behind it. -/
def adjacent (workers : List Object) : List (Object × Object) := workers.zip workers.tail

/-- The two workers of a connection. -/
def Connection.ends (c : Connection) : Object × Object := (c.source, c.ipipe)

/-- The first worker stands next to the second. -/
@[simp] theorem adjacent_cons_cons (v w : Object) (workers : List Object) :
    adjacent (v :: w :: workers) = (v, w) :: adjacent (w :: workers) := rfl

/-! ## Readings of a log -/

/-- The connections that have been made, in order. -/
def made : List Event → List Connection
  | [] => []
  | .connected c :: log => c :: made log
  | .cancelled _ :: log => made log

/-- The calls of `pipe` whose function has been called. -/
def cancelled : List Event → List ℕ
  | [] => []
  | .connected _ :: log => cancelled log
  | .cancelled p :: log => p :: cancelled log

/-- The connections of the pipes that have not been cancelled, in the order they were made in. -/
def live (log : List Event) : List Connection :=
  (made log).filter (fun c => c.pipe ∉ cancelled log)

/-- The connection leads out of a worker whose `get_listeners` returns this table. -/
def LeadsOut (all : TableId) (c : Connection) : Prop := memberOf members c.source = .table all

instance (all : TableId) (c : Connection) : Decidable (LeadsOut members all c) :=
  inferInstanceAs (Decidable (memberOf members c.source = .table all))

/-- The connections of one part of the log after another. -/
@[simp] theorem made_append (log more : List Event) :
    made (log ++ more) = made log ++ made more := by
  induction log with
  | nil => rfl
  | cons e log ih => cases e <;> simp [made, ih]

/-- The events of some connections are these connections. -/
@[simp] theorem made_connected (links : List Connection) : made (links.map .connected) = links := by
  induction links with
  | nil => rfl
  | cons c links ih => rw [List.map_cons, made, ih]

/-- The cancellations of one part of the log after another. -/
@[simp] theorem cancelled_append (log more : List Event) :
    cancelled (log ++ more) = cancelled log ++ cancelled more := by
  induction log with
  | nil => rfl
  | cons e log ih => cases e <;> simp [cancelled, ih]

/-- To connect cancels nothing. -/
@[simp] theorem cancelled_connected (links : List Connection) :
    cancelled (links.map .connected) = [] := by
  induction links with
  | nil => rfl
  | cons c links ih => rw [List.map_cons, cancelled, ih]

end Radapter.Pipes
