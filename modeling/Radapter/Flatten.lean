import Radapter.Variant

/-!
# Flattening of messages

`Flatten` turns a message tree into a list of field paths and leaves. The recursion of
`utils.cpp` shares one path string: every level appends its part, every leaf removes the
trailing separator, and every level then cuts the string back by the length of its part less
one. The cut assumes that the visited child was a leaf. This file models the walk with the
string passed along explicitly, and states the intended result separately.
-/

namespace Radapter

/-- The separator `':'` of field paths. -/
def colon : UInt8 := 58

/-- The part a map level appends to the path. -/
def mapPart (key : QString) : Bytes := toStdString key ++ [colon]

/-- The text `[i]` that names a list item. -/
def indexName (i : ℕ) : Bytes := 91 :: decimal i ++ [93]

/-- The part a list level appends to the path. The counter of the loop is an `unsigned`. -/
def listPart (idx : ℕ) : Bytes := indexName (idx % 2 ^ 32) ++ [colon]

/-- The cut after a visited child, `path.resize(path.size() - part.size() + 1)`. The unsigned
difference may wrap, but the sum does not: a leaf removes no more than one byte. -/
def leave (part path : Bytes) : Bytes := resize path (path.length + 1 - part.length)

mutual

/-- `flatten`: the entries written for a subtree and the path string it leaves behind. A leaf
pops the trailing separator, unless the path is empty. -/
def flatten (path : Bytes) : QVariant → FlatMap × Bytes
  | .map entries => flattenMap path entries
  | .list items => flattenList path 0 items
  | .leaf s => ([(path.dropLast, .leaf s)], path.dropLast)

/-- The loop over the entries of a map. -/
def flattenMap (path : Bytes) : List (QString × QVariant) → FlatMap × Bytes
  | [] => ([], path)
  | (key, v) :: rest =>
      let inner := flatten (path ++ mapPart key) v
      let after := flattenMap (leave (mapPart key) inner.2) rest
      (inner.1 ++ after.1, after.2)

/-- The loop over the items of a list, from item `idx` on. -/
def flattenList (path : Bytes) (idx : ℕ) : List QVariant → FlatMap × Bytes
  | [] => ([], path)
  | v :: rest =>
      let inner := flatten (path ++ listPart idx) v
      let after := flattenList (leave (listPart idx) inner.2) (idx + 1) rest
      (inner.1 ++ after.1, after.2)

end

/-- `Flatten`: the walk starts with an empty path. -/
def Flatten (input : QVariant) : FlatMap := (flatten [] input).1

/-! ## The intended result -/

mutual

/-- The leaves of a tree in traversal order, each with the components on the way to it. -/
def leaves : QVariant → List (List Bytes × Scalar)
  | .leaf s => [([], s)]
  | .map entries => leavesMap entries
  | .list items => leavesList 0 items

/-- The leaves below the entries of a map: the component is the key. -/
def leavesMap : List (QString × QVariant) → List (List Bytes × Scalar)
  | [] => []
  | (key, v) :: rest =>
      (leaves v).map (fun e => (toStdString key :: e.1, e.2)) ++ leavesMap rest

/-- The leaves below the items of a list: the component is the index in brackets. -/
def leavesList (idx : ℕ) : List QVariant → List (List Bytes × Scalar)
  | [] => []
  | v :: rest =>
      (leaves v).map (fun e => (indexName idx :: e.1, e.2)) ++ leavesList (idx + 1) rest

end

/-- One entry for every leaf, its key the components joined by the separator. -/
def leafEntries (v : QVariant) : FlatMap :=
  (leaves v).map (fun e => ([colon].intercalate e.1, .leaf e.2))

mutual

/-- No leaf is visited after a map or a list that is a sibling of the leaf or of one of its
ancestors, and none lies below a list item whose index does not fit the loop's counter. -/
def LeavesFirst : QVariant → Prop
  | .leaf _ => True
  | .map entries => LeavesFirstMap entries
  | .list items => LeavesFirstList 0 items

/-- The condition on the entries of a map. -/
def LeavesFirstMap : List (QString × QVariant) → Prop
  | [] => True
  | (_, v) :: rest =>
      LeavesFirst v ∧ (v.isContainer = true → leavesMap rest = []) ∧ LeavesFirstMap rest

/-- The condition on the items of a list, from item `idx` on. -/
def LeavesFirstList (idx : ℕ) : List QVariant → Prop
  | [] => True
  | v :: rest =>
      LeavesFirst v ∧ (idx < 2 ^ 32 ∨ leaves v = []) ∧
        (v.isContainer = true → leavesList (idx + 1) rest = []) ∧ LeavesFirstList (idx + 1) rest

end

end Radapter
