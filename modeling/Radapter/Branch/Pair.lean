import Radapter.Branch.Separator

/-!
# Branches of a worker

`pair` makes two anonymous workers with a key between them: what the first is called with is read
at the key and emitted by the second, and what the second is called with is put under the key and
emitted by the first. `branch` pipes the first to a parent worker and back, and returns the second.

A call runs the listeners it reaches before it returns. What the workers do that were there before a
branch is made is not modelled: what happens while one of them runs is a parameter.
-/

namespace Radapter.Branch

open Library Lua Lazy

/-! ## Reading and writing at a key -/

section Keys

variable (fl : Floats) (methods : Methods) (s : Session)

/-- `get` of a message: of a view of the session's message, or of a table. Views stored inside a
table are not followed here. The Lua stack is taken to have room for the path of a view. -/
def get (msg : Shown) (key sep : Bytes) : Outcome :=
  match msg with
  | .view w => s.getThrough fl methods w key sep
  | .value (.table fields) =>
      if sep = [] then .raised
      else
        match Get sep key (.table fields) with
        | none => .undefined
        | some v => .shown (.value v)
  | .value _ => .raised

/-- A message as a field of a table. -/
def stored : Shown → LuaValue
  | .value v => v
  | .view w => .view w.path

/-- `set({}, key, msg, sep)`. -/
def setNew (key : Bytes) (msg : Shown) (sep : Bytes) : Shown :=
  .value (.table (setLoop (stored msg) (if key = [] ∨ key = sep then [] else tableKeys sep key) []))

/-- Every level along the keys is a table, and so is what stands at their end, unless a field on
the way or there is missing. -/
def AllTables : LuaValue → List LuaKey → Prop
  | v, [] => v.isTable = true
  | v, k :: rest => v.isTable = true ∧ (tables.get v k = .nil ∨ AllTables (tables.get v k) rest)

/-- Every level along the keys is a view, and so is what stands at their end, unless something on
the way or there is missing. -/
def AllViews : View → List LuaKey → Prop
  | _, [] => True
  | w, k :: rest =>
      match PushIndexed fl w k with
      | .view below => AllViews below rest
      | .value v => v = .nil

/-- The message meets no scalar along the keys, the value at their end included. A materialized
message is the table that its view leads to; it has no views inside. -/
def Unobstructed (keys : List LuaKey) : Shown → Prop
  | .value v => AllTables v keys
  | .view w =>
      match s.table with
      | none => AllViews fl w keys
      | some table =>
          match resolve methods table w.path with
          | some (.table fields) => AllTables (.table fields) keys
          | some (.view _) => False
          | _ => True

end Keys

/-! ## Workers -/

/-- What a worker does when it is called. -/
inductive Body where
  /-- A worker that was there before. -/
  | given
  /-- The first worker of `pair`, with the second. -/
  | up (down : ℕ) (key sep : Bytes)
  /-- The second worker of `pair`, with the first. -/
  | down (up : ℕ) (key sep : Bytes)
  deriving DecidableEq

/-- A worker. A listener is told by the worker that it calls. -/
structure Worker where
  body : Body
  listeners : List ℕ

/-- The workers in the order they were made in. -/
abbrev World := List Worker

/-- What a worker does; none for one that is not there. -/
def bodyOf (w : World) (worker : ℕ) : Option Body := (w[worker]?).map Worker.body

/-- The entries of `worker:get_listeners()`. -/
def listenersOf (w : World) (worker : ℕ) : List ℕ := (w[worker]?).elim [] Worker.listeners

/-- `pipe` of two workers. -/
def connect (w : World) (target ipipe : ℕ) : World :=
  w.modify target (fun x => { x with listeners := x.listeners ++ [ipipe] })

/-- `pipe` of a worker to several others, one after the other. -/
def connectAll (w : World) (target : ℕ) (ipipes : List ℕ) : World :=
  ipipes.foldl (fun w ipipe => connect w target ipipe) w

/-- `pair`. -/
def pair (w : World) (key sep : Bytes) : (ℕ × ℕ) × World :=
  ((w.length, w.length + 1),
    w ++ [⟨.up (w.length + 1) key sep, []⟩, ⟨.down w.length key sep, []⟩])

/-- `branch`. -/
def branch (w : World) (parent : ℕ) (key sep : Bytes) : ℕ × World :=
  match pair w key sep with
  | ((up, down), w) => (down, connect (connect w parent up) up parent)

/-- What can be seen of a run. -/
inductive Event where
  /-- `notify_all` of a worker's listeners. -/
  | emitted (worker : ℕ) (msg : Shown) (sender : ℕ)
  /-- A worker was called. -/
  | received (worker : ℕ) (msg : Shown) (sender : Option ℕ)
  /-- A worker that was called raised an error, which its listener logged. -/
  | failed (worker : ℕ) (o : Outcome)

/-- The worker that an event is about. -/
def Event.worker : Event → ℕ
  | .emitted worker _ _ => worker
  | .received worker _ _ => worker
  | .failed worker _ => worker

/-- The loop of `call_all`: the listeners are called one after the other. -/
def call_all (call : ℕ → Option (List Event)) : List ℕ → Option (List Event)
  | [] => some []
  | listener :: rest =>
      (call listener).bind fun events => (call_all call rest).map fun more => events ++ more

/-- `notify_all`, given what calling a worker does. -/
def notify_all (w : World) (call : ℕ → Shown → Option ℕ → Option (List Event)) (worker : ℕ)
    (msg : Shown) (sender : Option ℕ) : Option (List Event) :=
  (call_all (fun listener => call listener msg (some (sender.getD worker)))
    (listenersOf w worker)).map fun events => .emitted worker msg (sender.getD worker) :: events

/-- `worker(msg, sender)`, with a bound on the depth of the calls. While a worker of the scripts
runs the events of `given` happen. -/
def call (fl : Floats) (methods : Methods) (s : Session)
    (given : ℕ → Shown → Option ℕ → List Event) (w : World) :
    ℕ → ℕ → Shown → Option ℕ → Option (List Event)
  | 0, _, _, _ => none
  | depth + 1, worker, msg, sender =>
      match bodyOf w worker with
      | none => none
      | some .given => some (.received worker msg sender :: given worker msg sender)
      | some (.up down key sep) =>
          match get fl methods s msg key sep with
          | .shown inner =>
              if (stored inner).isNil then some [.received worker msg sender]
              else
                (notify_all w (call fl methods s given w depth) down inner sender).map
                  fun events => .received worker msg sender :: events
          | o => some [.received worker msg sender, .failed worker o]
      | some (.down up key sep) =>
          (notify_all w (call fl methods s given w depth) up (setNew key msg sep) sender).map
            fun events => .received worker msg sender :: events

/-- The messages that a worker emitted, with their senders. -/
def emittedBy (worker : ℕ) : List Event → List (Shown × ℕ)
  | [] => []
  | .emitted x msg sender :: events =>
      if x = worker then (msg, sender) :: emittedBy worker events else emittedBy worker events
  | .received _ _ _ :: events => emittedBy worker events
  | .failed _ _ :: events => emittedBy worker events

/-- The messages that a worker was called with. -/
def receivedBy (worker : ℕ) : List Event → List Shown
  | [] => []
  | .received x msg _ :: events =>
      if x = worker then msg :: receivedBy worker events else receivedBy worker events
  | .emitted _ _ _ :: events => receivedBy worker events
  | .failed _ _ :: events => receivedBy worker events

end Radapter.Branch
