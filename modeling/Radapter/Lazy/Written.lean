import Radapter.Lazy.Current
import Radapter.Lua.Forwarded

/-!
# Something stored in the table of a message

The table of a message has a field for every part that is not null. Storing something along the
keys of a part replaces that part and nothing else. If what is stored cannot be converted, neither
can the message, unless it stands behind a null in a list: such items are not visited.
-/

namespace Radapter.Lazy

open Library Lua

variable (fl : Floats)

/-! ## Levels of a message and their tables -/

/-- A message whose maps are in order and whose keys come back from Lua. -/
structure Clean (v : QVariant) : Prop where
  ascending : v.Ascending
  keysKept : KeysKept v

/-- The fields of the table of a message, with the parts of the message they are made from. -/
def fieldsOf : QVariant → List (LuaKey × QVariant)
  | .leaf _ => []
  | .map entries =>
      (entries.filter (fun e => e.2.isValid)).map (fun e => (.string (toStdString e.1), e.2))
  | .list items => (validItems items).map (fun e => (.integer (e.2 : ℤ), e.1))

/-- A field is made from an entry of a map or an item of a list. -/
theorem Clean.field {v : QVariant} (hv : Clean v) {f : LuaKey × QVariant} (hf : f ∈ fieldsOf v) :
    Clean f.2 := by
  obtain ⟨hsorted, hkeys⟩ := hv
  cases v with
  | leaf s => cases hf
  | map entries =>
    obtain ⟨e, he, rfl⟩ := List.mem_map.mp hf
    have hmem := List.mem_of_mem_filter he
    rw [QVariant.Ascending, QVariant.ascendingMap_iff] at hsorted
    rw [KeysKept, keysKeptMap_iff] at hkeys
    exact ⟨hsorted.2 e hmem, (hkeys e hmem).2⟩
  | list items =>
    obtain ⟨e, he, rfl⟩ := List.mem_map.mp hf
    have hmem := fst_mem_of_validItems he
    rw [QVariant.Ascending, QVariant.ascendingList_iff] at hsorted
    rw [KeysKept, keysKeptList_iff] at hkeys
    exact ⟨hsorted e.1 hmem, hkeys e.1 hmem⟩

/-- A child of a clean message is clean. -/
theorem Clean.child {v child : QVariant} (hv : Clean v) {k : LuaKey}
    (h : childOf v k = some child) : Clean child := by
  refine ⟨ascending_childOf hv.ascending h, ?_⟩
  have hkeys := hv.keysKept
  rcases childOf_cases h with ⟨entries, s, rfl, -, hmem⟩ | ⟨items, j, rfl, -, hitem⟩
  · rw [KeysKept, keysKeptMap_iff] at hkeys
    exact (hkeys _ hmem).2
  · rw [KeysKept, keysKeptList_iff] at hkeys
    exact hkeys child (List.mem_of_getElem? hitem)

/-- The parts of a clean message are clean. -/
theorem Clean.part {v part : QVariant} (hv : Clean v) {keys : List LuaKey}
    (h : childAlong v keys = some part) : Clean part := by
  induction keys generalizing v with
  | nil =>
    obtain rfl : v = part := Option.some.inj h
    exact hv
  | cons k rest ih =>
    obtain ⟨next, hnext, hrest⟩ := exists_of_childAlong_cons h
    exact ih (hv.child hnext) hrest

/-- The conversion of the table of a message visits the field under a key. In a list it stops at the
first null, unless that is the first item. -/
def visits : QVariant → LuaKey → Bool
  | .list items, .integer n =>
      noFirst items || n ≤ (items.takeWhile QVariant.isValid).length
  | _, _ => true

/-- The conversion comes to the part that keys lead to. -/
def reaches : QVariant → List LuaKey → Bool
  | _, [] => true
  | v, k :: rest => visits v k && (childOf v k).any (fun child => reaches child rest)

section Stored

variable (lazy : ℕ → Path → Conversion) {x : LuaValue} {msg : String}

section List

variable {items : List QVariant} {j : ℕ} {child : QVariant} {reached : Bool} {room : ℕ}

end List

end Stored

/-! ## Following keys -/

end Radapter.Lazy
