import Radapter.Library.Runs
import Radapter.Lazy.Get

/-!
# Working with a message through its views

A script holds views of one message and reads and writes through them. The first write turns the
retained tree into a table, once and for all views: from then on a view follows its keys from that
table. A table is a value here; the tables of a message are a tree that nothing else refers to, so
a change in place is a change of the value at its path.

A view follows its keys from the Lua stack, where each takes a slot. Nothing asks for the slots, so
the keys of a deep view may be pushed beyond the end of the stack.
-/

namespace Radapter.Lazy

open Library Lua

/-- What an operation gave back. -/
inductive Outcome where
  | shown (s : Shown)
  | done
  | raised
  /-- The function `materialize` of the metatable. -/
  | method
  /-- A scalar was read with `lua_rawget`. -/
  | undefined
  /-- The keys of the view were pushed beyond the end of the Lua stack. -/
  | overrun

/-- `LazyOwner` and the views of its message that a script holds, the root view first. -/
structure Session where
  retained : QVariant
  table : Option LuaValue
  views : List View
  last : Outcome

/-- An operation through one of the held views. -/
inductive Action where
  | index (i : ℕ) (k : LuaKey)
  | get (i : ℕ) (path sep : Bytes)
  | assign (i : ℕ) (k : LuaKey) (x : LuaValue)
  | set (i : ℕ) (path : Bytes) (x : LuaValue) (sep : Bytes)
  | materialize (i : ℕ)

/-- The view an operation goes through. -/
def Action.view : Action → ℕ
  | .index i _ | .get i _ _ | .assign i _ _ | .set i _ _ _ | .materialize i => i

/-- An operation with the slots that are free on the Lua stack when it is called. -/
structure Call where
  action : Action
  slots : ℕ

/-- `PushRoot`. -/
def PushRoot (message : QVariant) : Session := ⟨message, none, [⟨[], message⟩], .done⟩

/-- The key `materialize`. -/
def materializeKey : LuaKey :=
  .string [109, 97, 116, 101, 114, 105, 97, 108, 105, 122, 101]

/-- The loop of `Set`: a level that is no table is replaced by a new one. -/
def setLoop (x : LuaValue) : List LuaKey → Fields → Fields
  | [], fields => fields
  | [k], fields => rawset fields k x
  | k :: rest, fields =>
      match rawget fields k with
      | .table below => rawset fields k (.table (setLoop x rest below))
      | _ => rawset fields k (.table (setLoop x rest []))

section Steps

variable (fl : Floats) (methods : Methods)

namespace Session

/-- The current value of the message: its table, or the one it would be pushed as. -/
def current (s : Session) : LuaValue := s.table.getD (Push fl s.retained)

/-- `MaterializeMessage`. -/
def MaterializeMessage (s : Session) : Session := { s with table := some (s.current fl) }

/-- The operation gave a result; a view is held from then on. -/
def answer (s : Session) : Outcome → Session
  | .shown (.view w) => { s with views := s.views ++ [w], last := .shown (.view w) }
  | o => { s with last := o }

/-- `NodeIndex`. -/
def NodeIndex (s : Session) (w : View) (k : LuaKey) : Outcome :=
  if k = materializeKey then .method
  else
    match s.table with
    | none => .shown (PushIndexed fl w k)
    | some table =>
        match (resolve methods table w.path).bind (fun v => gettable methods v k) with
        | none => .raised
        | some v => .shown (.value v)

/-- `GetPath`. -/
def getThrough (s : Session) (w : View) (path sep : Bytes) : Outcome :=
  if sep = [] then .raised
  else
    match s.table with
    | none => .shown (GetPath fl sep path w)
    | some table =>
        match resolve methods table w.path with
        | some (.table fields) =>
            match Get sep path (.table fields) with
            | none => .undefined
            | some v => .shown (.value v)
        | _ => .raised

/-- `NodeMaterialize`, after the message is materialized. -/
def NodeMaterialize (s : Session) (w : View) : Outcome :=
  match resolve methods (s.current fl) w.path with
  | none => .raised
  | some v => .shown (.value v)

/-- A change of the fields of the table that a view resolves to, in place. -/
def change (s : Session) (w : View) (f : Fields → Fields) : Option LuaValue :=
  match resolve methods (s.current fl) w.path with
  | some (.table fields) => some (tables.writeAt (.table (f fields)) w.path (s.current fl))
  | _ => none

/-- `NodeNewIndex`, after the message is materialized. -/
def NodeNewIndex (s : Session) (w : View) (k : LuaKey) (x : LuaValue) : Session :=
  match s.change fl methods w (fun fields => rawset fields k x) with
  | none => { s with last := .raised }
  | some table => { s with table := some table, last := .done }

/-- `Set`, after the message is materialized. It returns the table the view resolves to. -/
def Set (s : Session) (w : View) (path : Bytes) (x : LuaValue) (sep : Bytes) : Session :=
  let keys := if path = [] ∨ path = sep then [] else tableKeys sep path
  match s.change fl methods w (setLoop x keys) with
  | none => { s with last := .raised }
  | some table =>
      if sep = [] then { s with last := .raised }
      else { s with table := some table, last := .shown (.value (tables.readAt table w.path)) }

/-- The operation calls `PushResolved`. -/
def Resolves (s : Session) : Action → Prop
  | .index _ k => k ≠ materializeKey ∧ s.table.isSome
  | .get _ _ sep => sep ≠ [] ∧ s.table.isSome
  | _ => True

instance (s : Session) (a : Action) : Decidable (s.Resolves a) := by
  cases a with
  | index i k => exact inferInstanceAs (Decidable (_ ∧ _))
  | get i path sep => exact inferInstanceAs (Decidable (_ ∧ _))
  | assign i k x => exact inferInstanceAs (Decidable True)
  | set i path x sep => exact inferInstanceAs (Decidable True)
  | materialize i => exact inferInstanceAs (Decidable True)

/-- An operation through a view. -/
def perform (s : Session) (w : View) : Action → Session
  | .index _ k => s.answer (s.NodeIndex fl methods w k)
  | .get _ path sep => s.answer (s.getThrough fl methods w path sep)
  | .assign _ k x => (s.MaterializeMessage fl).NodeNewIndex fl methods w k x
  | .set _ path x sep => (s.MaterializeMessage fl).Set fl methods w path x sep
  | .materialize _ => (s.MaterializeMessage fl).answer (s.NodeMaterialize fl methods w)

/-- One operation. It needs a view that is held, and slots to resolve it. -/
def step (s : Session) (c : Call) : Option Session :=
  (s.views[c.action.view]?).map fun w =>
    if s.Resolves c.action ∧ c.slots < slotsNeeded w.path then { s with last := .overrun }
    else s.perform fl methods w c.action

end Session

end Steps

end Radapter.Lazy
