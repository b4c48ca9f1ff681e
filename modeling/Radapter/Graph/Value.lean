import Mathlib.Data.List.GetD
import Radapter.Lazy.Session

/-!
# Values in a graph

Lua tables are references: a table can be a field of several others or of itself, and it can hold
views of messages, whose tables may hold it in turn. Here a value tells a table by its number in the
heap and a view by its message and the keys that lead to it.

A view of a message that became a table resolves through that table, and indexing what stands on the
way may resolve further views. Lua bounds the calls that are open at a time.
-/

namespace Radapter.Graph

open Library Lua Lazy

/-- A Lua value. A view keeps the subtree of the message that it was made for. -/
inductive Value where
  | nil
  | boolean (b : Bool)
  | integer (n : BitVec 64)
  | number (bits : BitVec 64)
  | string (s : Bytes)
  | bytes (b : Bytes)
  /-- A function, a worker or another object that is no container. -/
  | object (id : ℕ)
  | table (id : ℕ)
  | view (message : ℕ) (path : Path) (value : QVariant)

namespace Value

/-- `lua_isnil`. -/
def isNil : Value → Bool
  | .nil => true
  | _ => false

/-- A value that is a table. -/
def isTable : Value → Bool
  | .table _ => true
  | _ => false

/-- Only `nil` counts as `nil`. -/
@[simp] theorem isNil_iff {v : Value} : v.isNil = true ↔ v = .nil := by
  cases v <;> simp [isNil]

end Value

/-- The fields of a table in the order of `next`. -/
abbrev Fields := List (LuaKey × Value)

/-- `lua_rawget`: a missing field reads as `nil`. -/
def rawget (fields : Fields) (k : LuaKey) : Value := (fields.lookup k).getD .nil

/-- `lua_rawset`: storing `nil` removes the field. -/
def rawset (fields : Fields) (k : LuaKey) (v : Value) : Fields :=
  if v.isNil then Assoc.erase k fields else Assoc.put k v fields

/-- The field that is set has the value, or is gone with `nil`. -/
theorem rawget_rawset_self (fields : Fields) (k : LuaKey) (v : Value) :
    rawget (rawset fields k v) k = v := by
  unfold rawget rawset
  split
  · next h => rw [Assoc.lookup_erase_self, Value.isNil_iff.mp h, Option.getD_none]
  · rw [Assoc.lookup_put_self, Option.getD_some]

/-- The other fields stay. -/
theorem rawget_rawset_ne {k j : LuaKey} (h : j ≠ k) (fields : Fields) (v : Value) :
    rawget (rawset fields k v) j = rawget fields j := by
  unfold rawget rawset
  split
  · rw [Assoc.lookup_erase_ne h]
  · rw [Assoc.lookup_put_ne h]

/-- The tables, and for each message the table that it became, if it did. -/
structure Heap where
  tables : List Fields
  messages : List (Option ℕ)

namespace Heap

variable (h : Heap)

/-- The fields of a table. -/
def fields (t : ℕ) : Fields := h.tables.getD t []

/-- The table that a message became. -/
def tableOf (message : ℕ) : Option ℕ := h.messages[message]?.join

/-- `lua_newtable`: the table is the last one of the heap. -/
def newtable : Heap := { h with tables := h.tables ++ [[]] }

/-- `lua_rawset` of a table. -/
def rawset (t : ℕ) (k : LuaKey) (v : Value) : Heap :=
  { h with tables := h.tables.modify t (fun fields => Graph.rawset fields k v) }

variable {h}

/-- A table with a field is in the heap. -/
theorem lt_of_rawget {t : ℕ} {k : LuaKey} (hk : Graph.rawget (h.fields t) k ≠ .nil) :
    t < h.tables.length := by
  by_contra hge
  apply hk
  rw [fields, List.getD_eq_default _ _ (not_lt.mp hge)]
  rfl

/-- A new table has no fields. -/
theorem fields_newtable_self : h.newtable.fields h.tables.length = [] := by
  rw [fields, newtable, List.getD_append_right _ _ _ _ (Nat.le_refl _), Nat.sub_self]
  rfl

/-- No table has other fields than before: the new one has none, as any that there is not. -/
theorem fields_newtable (t : ℕ) : h.newtable.fields t = h.fields t := by
  unfold fields newtable
  rcases Nat.lt_or_ge t h.tables.length with hlt | hge
  · rw [List.getD_append _ _ _ _ hlt]
  · rw [List.getD_append_right _ _ _ _ hge, List.getD_eq_default _ _ hge]
    cases t - h.tables.length <;> rfl

/-- A new table makes the heap one longer. -/
theorem length_newtable : h.newtable.tables.length = h.tables.length + 1 := by
  simp [newtable]

/-- To set a field makes no table. -/
theorem length_rawset (t : ℕ) (k : LuaKey) (v : Value) :
    (h.rawset t k v).tables.length = h.tables.length := by
  rw [rawset, List.length_modify]

/-- A table has its fields with the one that was set. -/
theorem fields_rawset_self {t : ℕ} (ht : t < h.tables.length) (k : LuaKey) (v : Value) :
    (h.rawset t k v).fields t = Graph.rawset (h.fields t) k v := by
  rw [fields, rawset, fields, List.getD_eq_getElem?_getD, List.getElem?_modify,
    List.getD_eq_getElem?_getD, List.getElem?_eq_getElem ht]
  simp

/-- The other tables stay. -/
theorem fields_rawset_ne {t s : ℕ} (hne : s ≠ t) (k : LuaKey) (v : Value) :
    (h.rawset t k v).fields s = h.fields s := by
  rw [fields, rawset, fields, List.getD_eq_getElem?_getD, List.getElem?_modify,
    List.getD_eq_getElem?_getD]
  simp [Ne.symm hne]

end Heap

/-! ## Views -/

/-- What the conversions rely on: indexing a value that is neither a table nor a view, which raises
an error when there is no result, the message that refers to an object, and the free slots that the
Lua stack has after it was asked for three, given how many it may have and has. -/
structure Runtime where
  fl : Floats
  find : Value → LuaKey → Option Value
  handle : ℕ → QVariant
  checkstack : ℕ → ℕ → ℕ

/-- Nothing but tables and views is indexed, and no object is converted. -/
def Runtime.unused : Runtime where
  fl := .unused
  find := fun _ _ => none
  handle := fun _ => .invalid
  checkstack := fun _ free => max 3 free

variable (rt : Runtime) (h : Heap)

/-- `glua::Push` of a scalar. -/
def pushScalar : Scalar → Value
  | .invalid => .nil
  | .bool b => .boolean b
  | .int n => .integer (n.signExtend 64)
  | .uint n => .integer (n.zeroExtend 64)
  | .longlong n => .integer n
  | .float bits => .number (rt.fl.widen bits)
  | .double bits => .number bits
  | .string s => .string (toStdString s)
  | .byteArray b => .bytes b

/-- `PushChildView`. -/
def PushChildView (message : ℕ) (path : Path) (k : LuaKey) : QVariant → Value
  | .leaf s => pushScalar rt s
  | child => .view message (path ++ [k]) child

/-- `PushResolved`: the keys of a view are followed from the table of its message. -/
def PushResolved (gettable : Value → LuaKey → Option Value) (table : ℕ) (path : Path) :
    Option Value :=
  path.foldlM gettable (.table table)

/-- `PushIndexed`. -/
def PushIndexed (gettable : Value → LuaKey → Option Value) (message : ℕ) (path : Path)
    (value : QVariant) (k : LuaKey) : Option Value :=
  match h.tableOf message with
  | some table => (PushResolved gettable table path).bind (gettable · k)
  | none =>
      match childOf value k with
      | some child => some (PushChildView rt message path k child)
      | none => some .nil

/-- The function `materialize` of the metatable. -/
def materialize : Value := .object 0

/-- `lua_gettable` with as many calls as may still be opened; none when it raises an error. Indexing
a view is `NodeIndex`. -/
def gettable : ℕ → Value → LuaKey → Option Value
  | _, .table t, k => some (rawget (h.fields t) k)
  | 0, .view _ _ _, _ => none
  | calls + 1, .view message path value, k =>
      if k = materializeKey then some materialize
      else PushIndexed rt h (gettable calls) message path value k
  | _, v, k => rt.find v k

/-- A key of a table or of a view; anything else has no keys. -/
def readKey (calls : ℕ) : Value → LuaKey → Option Value
  | .table t, k => some (rawget (h.fields t) k)
  | .view message path value, k => PushIndexed rt h (gettable rt h calls) message path value k
  | _, _ => some .nil

/-- The value at the end of a path through tables and views. It is missing when a view on the way
does not resolve. -/
def follow (calls : ℕ) (v : Value) (keys : Path) : Option Value :=
  keys.foldlM (readKey rt h calls) v

/-- A path is followed key by key. -/
theorem follow_cons (calls : ℕ) (v : Value) (k : LuaKey) (keys : Path) :
    follow rt h calls v (k :: keys) =
      (readKey rt h calls v k).bind (fun next => follow rt h calls next keys) := rfl

/-- Nothing is found below `nil`. -/
theorem follow_nil (calls : ℕ) (keys : Path) : follow rt h calls .nil keys = some .nil := by
  induction keys with
  | nil => rfl
  | cons k keys ih => rw [follow_cons]; exact ih

end Radapter.Graph
