import Radapter.Unicode
import Radapter.Variant
import Radapter.Library.Assoc
import Radapter.Library.Nested

/-!
# Lua values and the conversion of messages to them

`glua::Push` hands a message to Lua as a value: maps and lists become tables, and a null becomes
`nil`, which no table can hold. A table is modelled by its fields in the order in which `next`
visits them. The runtime is Lua 5.4, where a number is an integer or a float; a lazy view of a
message is a value too, told by the keys that lead to it.
-/

namespace Radapter.Lua

open Library

/-- A key of a table. A float with an integral value is the integer, as in Lua. -/
inductive LuaKey where
  | string (s : Bytes)
  | integer (n : ℤ)
  | number (bits : BitVec 64)
  | boolean (b : Bool)
  deriving DecidableEq, Repr

/-- The keys that lead from a message to a view of a part of it. -/
abbrev Path := List LuaKey

/-- A Lua value, as far as messages are made of them. A `bytes` value is the userdata that
`pushBytes` makes, a `view` the one that `PushView` makes. -/
inductive LuaValue where
  | nil
  | boolean (b : Bool)
  | integer (n : BitVec 64)
  | number (bits : BitVec 64)
  | string (s : Bytes)
  | bytes (b : Bytes)
  | table (fields : List (LuaKey × LuaValue))
  | view (path : Path)

namespace LuaValue

/-- `lua_isnil`. -/
def isNil : LuaValue → Bool
  | .nil => true
  | _ => false

/-- A value that is a table. -/
def isTable : LuaValue → Bool
  | .table _ => true
  | _ => false

/-- Only `nil` counts as `nil`. -/
@[simp] theorem isNil_iff {v : LuaValue} : v.isNil = true ↔ v = .nil := by
  cases v <;> simp [isNil]

/-- A table has fields. -/
theorem exists_of_isTable {v : LuaValue} (h : v.isTable = true) : ∃ fields, v = .table fields := by
  cases v with
  | table fields => exact ⟨fields, rfl⟩
  | nil => cases h
  | boolean b => cases h
  | integer n => cases h
  | number bits => cases h
  | string s => cases h
  | bytes b => cases h
  | view path => cases h

/-- Induction over a value: what holds of a table follows from what holds of its fields. -/
@[elab_as_elim]
theorem fieldInduction {motive : LuaValue → Prop}
    (scalar : ∀ v : LuaValue, v.isTable = false → motive v)
    (table : ∀ fields : List (LuaKey × LuaValue), (∀ f ∈ fields, motive f.2) →
      motive (.table fields)) (v : LuaValue) : motive v := by
  cases v with
  | table fields =>
    refine table fields fun f hf => ?_
    have hsize := List.sizeOf_lt_of_mem hf
    exact fieldInduction scalar table f.2
  | nil => exact scalar _ rfl
  | boolean b => exact scalar _ rfl
  | integer n => exact scalar _ rfl
  | number bits => exact scalar _ rfl
  | string s => exact scalar _ rfl
  | bytes b => exact scalar _ rfl
  | view path => exact scalar _ rfl
termination_by sizeOf v
decreasing_by
  have hpair : sizeOf f.2 < sizeOf f := by
    cases f
    simp only [Prod.mk.sizeOf_spec]
    omega
  simp_wf
  omega

end LuaValue

/-- The fields of a table. -/
abbrev Fields := List (LuaKey × LuaValue)

/-- `lua_rawget`: a missing field reads as `nil`. -/
def rawget (fields : Fields) (k : LuaKey) : LuaValue := (fields.lookup k).getD .nil

/-- `lua_rawset`: storing `nil` removes the field. -/
def rawset (fields : Fields) (k : LuaKey) (v : LuaValue) : Fields :=
  if v.isNil then Assoc.erase k fields else Assoc.put k v fields

/-- The field that is set has the value. -/
theorem rawget_rawset_self (fields : Fields) (k : LuaKey) (v : LuaValue) :
    rawget (rawset fields k v) k = v := by
  unfold rawget rawset
  split
  · next h => rw [Assoc.lookup_erase_self, LuaValue.isNil_iff.mp h, Option.getD_none]
  · rw [Assoc.lookup_put_self, Option.getD_some]

/-- The other fields stay. -/
theorem rawget_rawset_ne {k j : LuaKey} (h : j ≠ k) (fields : Fields) (v : LuaValue) :
    rawget (rawset fields k v) j = rawget fields j := by
  unfold rawget rawset
  split
  · rw [Assoc.lookup_erase_ne h]
  · rw [Assoc.lookup_put_ne h]

/-- Storing what a field holds changes nothing. -/
theorem rawset_rawget {fields : Fields} {k : LuaKey} (h : rawget fields k ≠ .nil) :
    rawset fields k (rawget fields k) = fields := by
  rw [rawset, if_neg (by simpa using h)]
  unfold rawget at h ⊢
  cases hk : fields.lookup k with
  | none => simp [hk] at h
  | some v => exact Assoc.put_of_lookup hk

/-- A field that does not read as `nil` is stored. -/
theorem mem_of_rawget {fields : Fields} {k : LuaKey} (h : rawget fields k ≠ .nil) :
    (k, rawget fields k) ∈ fields := by
  unfold rawget at h ⊢
  cases hk : fields.lookup k with
  | none => simp [hk] at h
  | some v => exact Assoc.mem_of_lookup hk

/-- A stored field does not read as `nil`, since no field holds it. -/
theorem rawget_ne_nil {fields : Fields} {k : LuaKey} (hk : k ∈ fields.map Prod.fst)
    (hvalues : ∀ f ∈ fields, f.2 ≠ .nil) : rawget fields k ≠ .nil := by
  unfold rawget
  cases hlookup : fields.lookup k with
  | none =>
    obtain ⟨f, hf, rfl⟩ := List.mem_map.mp hk
    simpa using List.lookup_eq_none_iff.mp hlookup f hf
  | some v => exact hvalues (k, v) (Assoc.mem_of_lookup hlookup)

/-- The fields of a value; only a table has some. -/
def LuaValue.fields : LuaValue → Fields
  | .table fields => fields
  | _ => []

/-- Tables as nested stores: what is no table reads as `nil`, and a write makes it one. -/
def tables : Store LuaValue LuaKey where
  get v k := rawget v.fields k
  set v k x := .table (rawset v.fields k x)
  get_set_self v k x := rawget_rawset_self v.fields k x
  get_set_ne v _ _ x h := rawget_rawset_ne h v.fields x

/-- A write below a field of a table. -/
theorem writeAt_table (x : LuaValue) (k : LuaKey) (rest : Path) (fields : Fields) :
    tables.writeAt x (k :: rest) (.table fields) =
      .table (rawset fields k (tables.writeAt x rest (rawget fields k))) := rfl

/-- Nothing is read from a value that is no table. -/
theorem tables_get_of_not_table {v : LuaValue} (h : v.isTable = false) (k : LuaKey) :
    tables.get v k = .nil := by
  cases v with
  | table fields => cases h
  | nil => rfl
  | boolean b => rfl
  | integer n => rfl
  | number bits => rfl
  | string s => rfl
  | bytes b => rfl
  | view path => rfl

/-- Nothing is read below a value that is no table. -/
theorem readAt_of_not_table {v : LuaValue} (h : v.isTable = false) {path : Path} (hne : path ≠ []) :
    tables.readAt v path = .nil := by
  obtain ⟨k, path, rfl⟩ := List.exists_cons_of_ne_nil hne
  rw [Store.readAt_cons, tables_get_of_not_table h]
  induction path with
  | nil => rfl
  | cons j path ih =>
    rw [Store.readAt_cons, tables_get_of_not_table rfl]
    exact ih (by simp)

/-! ## Messages as Lua values -/

/-- The floating-point conversions of the runtime, which the conversions of messages rely on. -/
structure Floats where
  /-- `double(float)`. -/
  widen : BitVec 32 → BitVec 64
  /-- `QString::number(double)`. -/
  numberText : BitVec 64 → QString

/-- Conversions for runs in which no `float` is widened and no number is a key. -/
def Floats.unused : Floats where
  widen := fun _ => 0
  numberText := fun _ => []

variable (fl : Floats)

/-- `glua::Push` of a scalar. -/
def pushScalar : Scalar → LuaValue
  | .invalid => .nil
  | .bool b => .boolean b
  | .int n => .integer (n.signExtend 64)
  | .uint n => .integer (n.zeroExtend 64)
  | .longlong n => .integer n
  | .float bits => .number (fl.widen bits)
  | .double bits => .number bits
  | .string s => .string (toStdString s)
  | .byteArray b => .bytes b

mutual

/-- `glua::Push`. The calls of `lua_checkstack` are taken to succeed: their results are ignored. -/
def Push : QVariant → LuaValue
  | .leaf s => pushScalar fl s
  | .map entries => .table (pushMap [] entries)
  | .list items => .table (pushList [] 1 items)

/-- The loop over the entries of a map: each is stored with `lua_settable`. -/
def pushMap (fields : Fields) : List (QString × QVariant) → Fields
  | [] => fields
  | (key, v) :: rest => pushMap (rawset fields (.string (toStdString key)) (Push v)) rest

/-- The loop over the items of a list: each is stored with `lua_rawseti`. -/
def pushList (fields : Fields) (i : ℕ) : List QVariant → Fields
  | [] => fields
  | v :: rest => pushList (rawset fields (.integer i) (Push v)) (i + 1) rest

end

/-- Only a null becomes `nil`. -/
theorem push_eq_nil_iff {v : QVariant} : Push fl v = .nil ↔ v = .invalid := by
  cases v with
  | leaf s => cases s <;> simp [Push, pushScalar, QVariant.invalid]
  | map entries => simp [Push, QVariant.invalid]
  | list items => simp [Push, QVariant.invalid]

/-- A message is pushed as a table when it is a map or a list. -/
theorem isTable_push (v : QVariant) : (Push fl v).isTable = v.isContainer := by
  cases v with
  | leaf s => cases s <;> rfl
  | map entries => rfl
  | list items => rfl

end Radapter.Lua
