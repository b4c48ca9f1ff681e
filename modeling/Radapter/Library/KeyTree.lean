import Mathlib.Order.Lattice
import Radapter.Library.Assoc

/-!
# Trees of keyed values

A tree is a leaf or has subtrees under keys. Subtrees are found along paths of keys; what a path
finds does not depend on the order of the fields as long as each key stands once.
-/

namespace Library

/-- A leaf, or a node with subtrees under its keys. -/
inductive KeyTree (κ α : Type*) where
  | leaf (a : α)
  | node (fields : List (κ × KeyTree κ α))

namespace KeyTree

variable {κ α : Type*}

/-- Induction over a tree: what holds of a node follows from what holds of its subtrees. -/
@[elab_as_elim]
theorem fieldInduction {motive : KeyTree κ α → Prop} (leaf : ∀ a, motive (.leaf a))
    (node : ∀ fields : List (κ × KeyTree κ α), (∀ f ∈ fields, motive f.2) → motive (.node fields))
    (t : KeyTree κ α) : motive t := by
  cases t with
  | leaf a => exact leaf a
  | node fields =>
    refine node fields fun f hf => ?_
    have hsize := List.sizeOf_lt_of_mem hf
    exact fieldInduction leaf node f.2
termination_by sizeOf t
decreasing_by
  have hpair : sizeOf f.2 < sizeOf f := by
    cases f
    simp only [Prod.mk.sizeOf_spec]
    omega
  simp_wf
  omega

mutual

/-- How many nodes stand above each other. -/
def height : KeyTree κ α → ℕ
  | .leaf _ => 0
  | .node fields => heightFields fields + 1

/-- The height of the highest subtree. -/
def heightFields : List (κ × KeyTree κ α) → ℕ
  | [] => 0
  | (_, t) :: rest => max (height t) (heightFields rest)

end

/-- A field is no higher than its node. -/
theorem height_le_of_mem {fields : List (κ × KeyTree κ α)} {f : κ × KeyTree κ α}
    (hf : f ∈ fields) : f.2.height ≤ heightFields fields := by
  induction fields with
  | nil => cases hf
  | cons g rest ih =>
    rw [heightFields]
    rcases List.mem_cons.mp hf with rfl | hf
    · exact le_max_left _ _
    · exact le_trans (ih hf) (le_max_right _ _)

/-- A subtree is lower than the tree. -/
theorem height_le_of_node {n : ℕ} {fields : List (κ × KeyTree κ α)}
    (h : (KeyTree.node fields).height ≤ n + 1) : ∀ f ∈ fields, f.2.height ≤ n :=
  fun _ hf => le_trans (height_le_of_mem hf) (Nat.le_of_succ_le_succ h)

mutual

/-- At every node each key stands once. -/
def Distinct : KeyTree κ α → Prop
  | .leaf _ => True
  | .node fields => Assoc.Distinct fields ∧ DistinctFields fields

/-- At every node of the subtrees each key stands once. -/
def DistinctFields : List (κ × KeyTree κ α) → Prop
  | [] => True
  | (_, t) :: rest => Distinct t ∧ DistinctFields rest

end

/-- Fields have distinct keys throughout if each of them has. -/
theorem distinctFields_iff {fields : List (κ × KeyTree κ α)} :
    DistinctFields fields ↔ ∀ f ∈ fields, f.2.Distinct := by
  induction fields with
  | nil => simp [DistinctFields]
  | cons f rest ih => rw [DistinctFields, ih, List.forall_mem_cons]

/-- A node has distinct keys throughout if its own are distinct and each field has. -/
theorem distinct_node {fields : List (κ × KeyTree κ α)} :
    (KeyTree.node fields).Distinct ↔ Assoc.Distinct fields ∧ ∀ f ∈ fields, f.2.Distinct := by
  rw [Distinct, distinctFields_iff]

section Paths

variable [BEq κ]

/-- The subtree at the end of a path. -/
def subtree : KeyTree κ α → List κ → Option (KeyTree κ α)
  | t, [] => some t
  | .node fields, k :: path => (fields.lookup k).bind (subtree · path)
  | .leaf _, _ :: _ => none

/-- The path leads to a leaf. -/
def LeafAt (t : KeyTree κ α) (path : List κ) (a : α) : Prop := t.subtree path = some (.leaf a)

/-- A leaf below a node is one of the field that the path starts with. -/
theorem leafAt_cons {fields : List (κ × KeyTree κ α)} {k : κ} {path : List κ} {a : α} :
    LeafAt (.node fields) (k :: path) a ↔ ∃ t, fields.lookup k = some t ∧ LeafAt t path a := by
  rw [LeafAt, subtree, Option.bind_eq_some_iff]
  rfl

/-- Below a leaf there is nothing. -/
theorem not_leafAt_leaf {b a : α} {k : κ} {path : List κ} : ¬ LeafAt (.leaf b) (k :: path) a := by
  intro h
  cases h

end Paths

end KeyTree

end Library
