import Radapter.Lazy.Follow
import Radapter.Lazy.Written
import Radapter.Lua.Leaves

/-!
# Forwarding a message after a write

An untouched view is forwarded as the subtree it keeps. After a write through any view the message
is a table, and forwarding converts that table back. Even a write that changes no value then loses
the leaves that stand behind a null in a list; and assigning to a field the view that was read from
it stores the view in its own place, where the conversion follows it until it gives up.

Both the write and the forwarding push the keys of their view on the Lua stack without asking for
the slots.
-/

namespace Radapter.Lazy

open Library Lua

variable (fl : Floats) (methods : Methods)

/-! ## Converting a view -/

/-- `MaxConvertDepth`. -/
def MaxConvertDepth : ℕ := 32

/-- The error of a conversion that nests too deeply. -/
def nestsTooDeeply : String :=
  "lazy view conversion nests too deeply (does a message refer to itself?)"

/-- The error that Lua raises for a level that cannot be indexed. -/
def notIndexable : String := "attempt to index a value"

/-- What stands for a conversion that pushed keys beyond the end of the Lua stack. -/
def overrun : String := "stack overrun"

/-- `ToQVariant` of a view by its keys, in the table of its message. The view is resolved to one
value on the stack, which is converted; views that are stored in it come back here, as often as
`depth` allows. -/
def convertAt (table : LuaValue) : ℕ → ℕ → Path → Conversion
  | 0, _, _ => .error nestsTooDeeply
  | depth + 1, room, path =>
      match resolve methods table path with
      | none => .error notIndexable
      | some v => toQVar fl (convertAt table depth) (room - 1) v

/-- `ToQVariant`, with the slots that are free on the Lua stack and those that there may be. -/
def ToQVariant (s : Session) (slots room : ℕ) (w : View) : Conversion :=
  match s.table with
  | none => .ok w.value
  | some table =>
      if slots < slotsNeeded w.path then .error overrun
      else convertAt fl methods table MaxConvertDepth room w.path

/-- A write through a view: an assignment to a field, or `set` along a path. -/
inductive FieldWrite where
  | assign (k : LuaKey)
  | set (path sep : Bytes)

/-- The keys that lead from the view to the field. -/
def FieldWrite.keys : FieldWrite → List LuaKey
  | .assign k => [k]
  | .set path sep => pathKeys sep path

/-- What Lua holds of something shown. -/
def Shown.held : Shown → LuaValue
  | .value v => v
  | .view w => .view w.path

/-- The value is the one that a field has: what the view shows there, or the plain value of it. -/
def Already (w : View) (keys : List LuaKey) (x : LuaValue) : Prop :=
  x = (getPathLoop fl w keys).held ∨ x = (getPathLoop fl w keys).plain fl

/-- The message after a write through a view of it, with no write before. -/
def written (message : QVariant) (w : View) (x : LuaValue) : FieldWrite → Session
  | .assign k => ((PushRoot message).MaterializeMessage fl).NodeNewIndex fl methods w k x
  | .set path sep => ((PushRoot message).MaterializeMessage fl).Set fl methods w path x sep

/-- What a view shows of a part below it. -/
theorem getPathLoop_eq {w : View} {keys : List LuaKey} (hkeys : keys ≠ []) {child : QVariant}
    (h : childAlong w.value keys = some child) : getPathLoop fl w keys =
      if child.isContainer then .view ⟨w.path ++ keys, child⟩ else .value (Push fl child) := by
  induction keys generalizing w with
  | nil => exact absurd rfl hkeys
  | cons k rest ih =>
    obtain ⟨next, hnext, hrest⟩ := exists_of_childAlong_cons h
    simp only [getPathLoop, PushIndexed, hnext, PushChildView]
    cases rest with
    | nil =>
      obtain rfl : next = child := Option.some.inj hrest
      cases next.isContainer with
      | true => rfl
      | false => rfl
    | cons j rest =>
      obtain ⟨below, hbelow, -⟩ := exists_of_childAlong_cons hrest
      rw [isContainer_of_childOf hbelow, if_pos rfl]
      have hloop := @ih ⟨w.path ++ [k], next⟩ (by simp) hrest
      rw [List.append_assoc, List.singleton_append] at hloop
      exact hloop

/-- The value that a field has is its plain value, or the view of a container. -/
theorem Already.cases {w : View} {keys : List LuaKey} {x : LuaValue} {child : QVariant}
    (hkeys : keys ≠ []) (hchild : childAlong w.value keys = some child) (h : Already fl w keys x) :
    x = Push fl child ∨ child.isContainer = true ∧ x = .view (w.path ++ keys) := by
  rw [Already, getPathLoop_eq fl hkeys hchild] at h
  cases hcontainer : child.isContainer with
  | true =>
    rw [hcontainer, if_pos rfl] at h
    rcases h with h | h
    · exact .inr ⟨rfl, h⟩
    · exact .inl h
  | false =>
    rw [hcontainer, if_neg Bool.false_ne_true] at h
    rcases h with h | h
    · exact .inl h
    · exact .inl h

/-! ## Forwarding -/

end Radapter.Lazy
