import Radapter.Flatten

/-!
# The path string of a flattening

`Flatten` carries one path string through the whole tree. A leaf call hands it back one byte
short, and the cut of the enclosing level restores it. A map or list call hands it back whole, or
longer, and the same cut then leaves at least one byte of the child's part behind. The entries
still correspond to the leaves one by one.
-/

namespace Radapter

/-- The key of a leaf below a path string that already ends with the separator. -/
def keyAt (path : Bytes) (components : List Bytes) : Bytes :=
  (path ++ components.flatMap (· ++ [colon])).dropLast

/-- The entries intended for a subtree that is entered with the given path string. -/
def entriesAt (path : Bytes) (found : List (List Bytes × Scalar)) : FlatMap :=
  found.map (fun e => (keyAt path e.1, .leaf e.2))

/-- No leaves have no entries. -/
@[simp] theorem entriesAt_nil (path : Bytes) : entriesAt path [] = [] := rfl

/-- Descending moves a component from the relative key into the path string. -/
theorem entriesAt_below (path c : Bytes) (found rest : List (List Bytes × Scalar)) :
    entriesAt path (found.map (fun e => (c :: e.1, e.2)) ++ rest) =
      entriesAt (path ++ (c ++ [colon])) found ++ entriesAt path rest := by
  simp [entriesAt, keyAt, Function.comp_def]

/-- The path-string form of the keys is the join of the components. -/
theorem keyAt_eq_intercalate (components : List Bytes) :
    keyAt [] components = [colon].intercalate components := by
  unfold keyAt
  induction components with
  | nil => rfl
  | cons c rest ih =>
    cases rest with
    | nil => simp
    | cons d rest =>
      rw [List.intercalate_cons_of_ne_nil (by simp), ← ih, List.flatMap_cons, List.nil_append,
        List.nil_append, List.dropLast_append_of_ne_nil (by simp)]

/-! ## The path string between children -/

/-- After a leaf the cut restores the path string. -/
theorem leave_leaf (path c : Bytes) {v : QVariant} (hv : v.isContainer = false) :
    leave (c ++ [colon]) (flatten (path ++ (c ++ [colon])) v).2 = path := by
  cases v with
  | leaf s =>
    have hpath : (path ++ (c ++ [colon])).dropLast = path ++ c := by
      rw [← List.append_assoc, List.dropLast_concat]
    rw [flatten, hpath, leave]
    simp
  | map entries => simp [QVariant.isContainer] at hv
  | list items => simp [QVariant.isContainer] at hv

/-- After a map or a list the cut leaves one byte more than the call itself left. -/
theorem leave_append (path c g : Bytes) :
    leave (c ++ [colon]) (path ++ (c ++ [colon]) ++ g) =
      path ++ ((c ++ [colon]) ++ g).take (g.length + 1) := by
  have hlen : (path ++ (c ++ [colon]) ++ g).length + 1 - (c ++ [colon]).length =
      path.length + (g.length + 1) := by
    simp only [List.length_append, List.length_singleton]
    omega
  rw [leave, hlen, resize_of_le, List.append_assoc, List.take_length_add_append]
  simp only [List.length_append, List.length_singleton]
  omega

/-- Whatever the child was, the next child starts from an extension of the path string. -/
theorem leave_extends (path c : Bytes) (v : QVariant)
    (hinner : v.isContainer = true →
      ∃ g, (flatten (path ++ (c ++ [colon])) v).2 = path ++ (c ++ [colon]) ++ g) :
    ∃ g, leave (c ++ [colon]) (flatten (path ++ (c ++ [colon])) v).2 = path ++ g := by
  cases hv : v.isContainer with
  | false => exact ⟨[], by rw [leave_leaf path c hv, List.append_nil]⟩
  | true =>
    obtain ⟨g, hg⟩ := hinner hv
    exact ⟨_, by rw [hg, leave_append]⟩

mutual

/-- A map or list call only ever appends to the path string it was given. -/
theorem flatten_path {v : QVariant} (hv : v.isContainer = true) (path : Bytes) :
    ∃ g, (flatten path v).2 = path ++ g := by
  cases v with
  | leaf s => simp [QVariant.isContainer] at hv
  | map entries => simpa only [flatten] using flattenMap_path path entries
  | list items => simpa only [flatten] using flattenList_path path 0 items

/-- The walk over a map leaves its path behind, with something more or without. -/
theorem flattenMap_path (path : Bytes) (entries : List (QString × QVariant)) :
    ∃ g, (flattenMap path entries).2 = path ++ g := by
  cases entries with
  | nil => exact ⟨[], by simp [flattenMap]⟩
  | cons entry rest =>
    obtain ⟨key, v⟩ := entry
    obtain ⟨g, hg⟩ := leave_extends path (toStdString key) v (fun hv => flatten_path hv _)
    obtain ⟨g', hg'⟩ := flattenMap_path (path ++ g) rest
    exact ⟨g ++ g', by simp only [flattenMap, mapPart, hg, hg', List.append_assoc]⟩

/-- So does the walk over a list. -/
theorem flattenList_path (path : Bytes) (idx : ℕ) (items : List QVariant) :
    ∃ g, (flattenList path idx items).2 = path ++ g := by
  cases items with
  | nil => exact ⟨[], by simp [flattenList]⟩
  | cons v rest =>
    obtain ⟨g, hg⟩ := leave_extends path (indexName (idx % 2 ^ 32)) v (fun hv => flatten_path hv _)
    obtain ⟨g', hg'⟩ := flattenList_path (path ++ g) (idx + 1) rest
    exact ⟨g ++ g', by simp only [flattenList, listPart, hg, hg', List.append_assoc]⟩

end

/-- After a map or a list the next child starts from a string that still holds the first bytes
of the child's part. -/
theorem leave_container (path c : Bytes) {v : QVariant} (hv : v.isContainer = true) :
    ∃ g : Bytes, leave (c ++ [colon]) (flatten (path ++ (c ++ [colon])) v).2 =
      path ++ ((c ++ [colon]) ++ g).take (g.length + 1) := by
  obtain ⟨g, hg⟩ := flatten_path hv (path ++ (c ++ [colon]))
  exact ⟨g, by rw [hg, leave_append]⟩

/-! ## Entries and leaves correspond -/

mutual

/-- The walk writes as many entries as the tree has leaves. -/
theorem flatten_length (path : Bytes) (v : QVariant) :
    (flatten path v).1.length = (leaves v).length := by
  cases v with
  | leaf s => simp [flatten, leaves]
  | map entries => simpa only [flatten, leaves] using flattenMap_length path entries
  | list items => simpa only [flatten, leaves] using flattenList_length path 0 items

/-- A map has one entry for each of its leaves. -/
theorem flattenMap_length (path : Bytes) (entries : List (QString × QVariant)) :
    (flattenMap path entries).1.length = (leavesMap entries).length := by
  cases entries with
  | nil => simp [flattenMap, leavesMap]
  | cons entry rest =>
    obtain ⟨key, v⟩ := entry
    simp only [flattenMap, leavesMap, List.length_append, List.length_map, flatten_length,
      flattenMap_length _ rest]

/-- So has a list. -/
theorem flattenList_length (path : Bytes) (idx : ℕ) (items : List QVariant) :
    (flattenList path idx items).1.length = (leavesList idx items).length := by
  cases items with
  | nil => simp [flattenList, leavesList]
  | cons v rest =>
    simp only [flattenList, leavesList, List.length_append, List.length_map, flatten_length,
      flattenList_length _ (idx + 1) rest]

end

/-- Two concatenations of entries agree exactly when both halves do, once the first halves
belong to the same leaves. -/
theorem append_eq_iff {a b c d : FlatMap} (hlen : a.length = c.length) :
    a ++ b = c ++ d ↔ a = c ∧ b = d :=
  ⟨fun h => List.append_inj h hlen, fun h => by rw [h.1, h.2]⟩

/-- A subtree without leaves is a map or a list. -/
theorem isContainer_of_leaves_nil {v : QVariant} (hv : leaves v = []) : v.isContainer = true := by
  cases v with
  | leaf s => simp [leaves] at hv
  | map entries => rfl
  | list items => rfl

mutual

/-- A subtree without leaves satisfies the condition. -/
theorem LeavesFirst.of_leaves_nil {v : QVariant} (hv : leaves v = []) : LeavesFirst v := by
  cases v with
  | leaf s => trivial
  | map entries => exact LeavesFirstMap.of_leaves_nil hv
  | list items => exact LeavesFirstList.of_leaves_nil hv

/-- A map without leaves meets the condition. -/
theorem LeavesFirstMap.of_leaves_nil {entries : List (QString × QVariant)}
    (h : leavesMap entries = []) : LeavesFirstMap entries := by
  cases entries with
  | nil => trivial
  | cons entry rest =>
    obtain ⟨key, v⟩ := entry
    simp only [leavesMap, List.append_eq_nil_iff, List.map_eq_nil_iff] at h
    exact ⟨.of_leaves_nil h.1, fun _ => h.2, .of_leaves_nil h.2⟩

/-- So does a list. -/
theorem LeavesFirstList.of_leaves_nil {idx : ℕ} {items : List QVariant}
    (h : leavesList idx items = []) : LeavesFirstList idx items := by
  cases items with
  | nil => trivial
  | cons v rest =>
    simp only [leavesList, List.append_eq_nil_iff, List.map_eq_nil_iff] at h
    exact ⟨.of_leaves_nil h.1, Or.inr h.1, fun _ => h.2, .of_leaves_nil h.2⟩

end

end Radapter
