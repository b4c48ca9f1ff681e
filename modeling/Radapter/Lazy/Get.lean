import Radapter.Lazy.Paths

/-!
# `get` on views and on tables

Both walks read what stands along their keys in the table of the message. They follow the same keys
unless the path starts with a separator.
-/

namespace Radapter.Lazy

open Library Lua

/-- The keys meet no scalar before the last of them: each level is a table, or a field on the way is
missing. -/
def MeetsNoScalar : LuaValue → List LuaKey → Prop
  | _, [] => True
  | v, k :: rest =>
      v.isTable = true ∧ (tables.get v k = .nil ∨ MeetsNoScalar (tables.get v k) rest)

/-- The keys find the same children by their texts as by their bytes, at every level they reach. -/
def FindsAlong : QVariant → List LuaKey → Prop
  | _, [] => True
  | v, k :: rest => FindsSame v k ∧ ∀ child ∈ childOf v k, FindsAlong child rest

/-- A missing field has nothing below it. -/
theorem readAt_nil_value (path : Path) : tables.readAt .nil path = .nil := by
  cases path with
  | nil => rfl
  | cons k path => exact readAt_of_not_table rfl (by simp)

/-- The walk of a table reads what stands along its keys. -/
theorem getLoop_eq {v : LuaValue} {keys : List LuaKey} (h : MeetsNoScalar v keys) :
    getLoop v keys = some (tables.readAt v keys) := by
  induction keys generalizing v with
  | nil => cases v <;> rfl
  | cons k rest ih =>
    obtain ⟨hv, hrest⟩ := h
    obtain ⟨fields, rfl⟩ := LuaValue.exists_of_isTable hv
    rw [getLoop, Store.readAt_cons]
    by_cases hnil : rawget fields k = .nil
    · rw [if_pos (LuaValue.isNil_iff.mpr hnil)]
      rw [show tables.get (.table fields) k = .nil from hnil, readAt_nil_value]
    · rw [if_neg (by simpa using hnil)]
      exact ih (hrest.resolve_left hnil)

/-- The child of an ascending tree is ascending. -/
theorem ascending_childOf {v child : QVariant} {k : LuaKey} (h : v.Ascending)
    (hchild : childOf v k = some child) : child.Ascending := by
  rcases childOf_cases hchild with ⟨entries, s, rfl, -, hmem⟩ | ⟨items, j, rfl, -, hitem⟩
  · rw [QVariant.Ascending, QVariant.ascendingMap_iff] at h
    exact h.2 _ hmem
  · rw [QVariant.Ascending, QVariant.ascendingList_iff] at h
    exact h child (List.mem_of_getElem? hitem)

/-- Reading a field of a pushed container reads the child under the key. -/
theorem tables_get_push (fl : Floats) {v : QVariant} (hv : v.isContainer = true)
    (hsorted : v.Ascending) {k : LuaKey} (h : FindsSame v k) :
    tables.get (Push fl v) k = (childOf v k).elim .nil (Push fl) := by
  have hget := gettable_push fl .unused hv hsorted h
  cases v with
  | leaf s => cases hv
  | map entries => exact Option.some.inj hget
  | list items => exact Option.some.inj hget

/-- The walk of a view shows what stands along its keys in the table of its subtree. -/
theorem plain_getPathLoop (fl : Floats) {w : View} (hw : w.value.isContainer = true)
    (hsorted : w.value.Ascending) {keys : List LuaKey} (h : FindsAlong w.value keys) :
    (getPathLoop fl w keys).plain fl = tables.readAt (Push fl w.value) keys := by
  induction keys generalizing w with
  | nil => rfl
  | cons k rest ih =>
    obtain ⟨hsame, hbelow⟩ := h
    rw [Store.readAt_cons, tables_get_push fl hw hsorted hsame, getPathLoop]
    cases hchild : childOf w.value k with
    | none =>
      rw [Option.elim_none, readAt_nil_value]
      simp only [PushIndexed, hchild]
      split_ifs <;> rfl
    | some child =>
      rw [Option.elim_some]
      simp only [PushIndexed, hchild, PushChildView]
      cases hcontainer : child.isContainer with
      | true => exact ih hcontainer (ascending_childOf hsorted hchild) (hbelow child hchild)
      | false =>
        rw [if_neg Bool.false_ne_true]
        have htable : (Push fl child).isTable = false := by rw [isTable_push, hcontainer]
        by_cases hrest : rest = []
        · rw [hrest]
          rfl
        · simp only [if_neg hrest]
          rw [readAt_of_not_table htable hrest]
          rfl

/-- `get` gives the same result on the root view of a message that is not materialized and on the
table of the message: the same scalar or nil, or a view of the subtree that the table holds. -/
def GetAgrees (fl : Floats) (sep path : Bytes) (message : QVariant) : Prop :=
  Get sep path (Push fl message) = some ((GetPath fl sep path ⟨[], message⟩).plain fl)

/-- `get` agrees exactly when the path does not start with a separator, is the separator, or when
the entry under the empty key holds under the rest of the path what the message holds there. -/
theorem getAgrees_iff (fl : Floats) {message : QVariant} (hmessage : message.isContainer = true)
    (hsorted : message.Ascending) {sep path : Bytes} (hsep : sep ≠ [])
    (hscalar : MeetsNoScalar (Push fl message) (tableKeys sep path))
    (htext : FindsAlong message (viewKeys sep path)) :
    GetAgrees fl sep path message ↔ ∀ rest, path = sep ++ rest → rest ≠ [] →
      tables.readAt (Push fl message) (.string [] :: viewKeys sep rest) =
        tables.readAt (Push fl message) (viewKeys sep rest) := by
  unfold GetAgrees Get GetPath
  by_cases hwhole : path = [] ∨ path = sep
  · rw [if_pos hwhole, if_pos hwhole]
    apply iff_of_true rfl
    rintro rest rfl hrest
    simp [hsep, hrest] at hwhole
  · rw [if_neg hwhole, if_neg hwhole, getLoop_eq hscalar,
      plain_getPathLoop fl hmessage hsorted htext, Option.some.injEq]
    by_cases hleading : sep <+: path
    · obtain ⟨rest, rfl⟩ := hleading
      have hrest : rest ≠ [] := by
        rintro rfl
        simp at hwhole
      rw [tableKeys_append, viewKeys_append hsep]
      constructor
      · intro heq other hother _
        rw [← List.append_cancel_left hother]
        exact heq.symm
      · intro h
        exact (h rest rfl hrest).symm
    · have hkeys : tableKeys sep path = viewKeys sep path := by rw [tableKeys, if_neg hleading]
      rw [hkeys]
      apply iff_of_true rfl
      rintro rest rfl
      exact absurd (List.prefix_append sep rest) hleading

/-- The path `a:[1]` in a message with a list. -/
theorem getAgrees_index :
    GetAgrees .unused [58] [97, 58, 91, 49, 93] (.map [([97], .list [.leaf (.bool true)])]) ∧
      Get [58] [97, 58, 91, 49, 93]
        (Push .unused (.map [([97], .list [.leaf (.bool true)])])) = some (.boolean true) := by
  have hkeys : viewKeys [58] [97, 58, 91, 49, 93] = [.string [97], .integer 1] := by decide
  have htable : tableKeys [58] [97, 58, 91, 49, 93] = [.string [97], .integer 1] := by decide
  have hlist :
      tables.get (Push .unused (.map [([97], .list [.leaf (.bool true)])])) (.string [97]) =
      .table [(.integer 1, .boolean true)] := rfl
  have hscalar : MeetsNoScalar (Push .unused (.map [([97], .list [.leaf (.bool true)])]))
      (tableKeys [58] [97, 58, 91, 49, 93]) := by
    rw [htable, MeetsNoScalar, hlist]
    exact ⟨rfl, .inr ⟨rfl, .inr trivial⟩⟩
  have htext : FindsAlong (.map [([97], .list [.leaf (.bool true)])])
      (viewKeys [58] [97, 58, 91, 49, 93]) := by
    rw [hkeys]
    refine ⟨?_, fun child hchild => ?_⟩
    · simp only [FindsSame, List.mem_singleton, forall_eq]
      exact iff_of_true (by decide) (by decide)
    · obtain rfl : QVariant.list [.leaf (.bool true)] = child := Option.some.inj hchild
      exact ⟨trivial, fun _ _ => trivial⟩
  constructor
  · rw [getAgrees_iff .unused rfl (by simp [QVariant.Ascending, QVariant.AscendingMap,
      QVariant.AscendingList]) (by decide) hscalar htext]
    intro rest hrest
    cases hrest
  · rfl

/-- A view finds nothing along a path with a leading separator. -/
theorem not_getAgrees_leading :
    ¬ GetAgrees .unused [58] [58, 97] (.map [([97], .leaf (.bool true))]) := by
  have htable : Get [58] [58, 97] (Push .unused (.map [([97], .leaf (.bool true))])) =
      some (.boolean true) := rfl
  have hview : (GetPath .unused [58] [58, 97] ⟨[], .map [([97], .leaf (.bool true))]⟩).plain .unused
      = .nil := rfl
  rw [GetAgrees, htable, hview]
  simp

end Radapter.Lazy
