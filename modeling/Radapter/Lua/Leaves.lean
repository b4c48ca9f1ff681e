import Radapter.Lua.Forwarded
import Radapter.Lua.Strings

/-!
# Leaves that come back from Lua

A leaf of a message that is not null is at its place again in `forwarded` unless it is a text that
does not come back or stands, in a list, behind a null: the table of a list ends at the first `nil`,
and without a first value it is not even a list.
-/

namespace Radapter.Lua

variable (fl : Floats)

/-- A message has no leaves but nulls. -/
def NoLeaves (v : QVariant) : Prop := ∀ e ∈ places v, e.2 = .invalid

mutual

/-- The texts of a message come back, and in its lists no item behind a null has a leaf that is not
null. -/
def LeavesKept : QVariant → Prop
  | .leaf (.string q) => TextKept q
  | .leaf _ => True
  | .map entries => LeavesKeptMap entries
  | .list items => LeavesKeptList false items

/-- The condition on the values of a map. -/
def LeavesKeptMap : List (QString × QVariant) → Prop
  | [] => True
  | (_, v) :: rest => LeavesKept v ∧ LeavesKeptMap rest

/-- The condition on the items of a list, of which some before were null. -/
def LeavesKeptList (ended : Bool) : List QVariant → Prop
  | [] => True
  | v :: rest =>
      LeavesKept v ∧ (ended = true → NoLeaves v) ∧ LeavesKeptList (ended || !v.isValid) rest

end

/-! ## Texts -/

end Radapter.Lua
