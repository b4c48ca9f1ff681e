import Mathlib.Data.Fintype.EquivFin
import Radapter.Graph.Overlay

/-!
# Tables as trees

A table without cycles unfolds to a tree of options. A table may be met more than once on the way,
so the tree says nothing about which tables are the same; a bound on their numbers says which are
new.
-/

namespace Radapter.Graph

open Library Lua

/-- A table is reached from another one through fields. -/
inductive Reaches (h : Heap) (t : ℕ) : ℕ → Prop where
  | refl : Reaches h t t
  | field {s u : ℕ} {k : LuaKey} :
      Reaches h t s → (k, .table u) ∈ h.fields s → Reaches h t u

/-- No table that is reached is reached from one of its fields. -/
def Acyclic (h : Heap) (t : ℕ) : Prop :=
  ∀ s, Reaches h t s → ∀ k u, (k, .table u) ∈ h.fields s → ¬ Reaches h u s

/-- What Lua keeps of its tables: each key stands once, no field is `nil`, and a field that is a
table is one of the heap. -/
structure Heap.WellFormed (h : Heap) : Prop where
  distinct : ∀ fields ∈ h.tables, Assoc.Distinct fields
  notNil : ∀ fields ∈ h.tables, ∀ e ∈ fields, e.2.isNil = false
  inside : ∀ fields ∈ h.tables, ∀ k u, (k, .table u) ∈ fields → u < h.tables.length

mutual

/-- The value is the tree, and no table on the way is older than the first one. -/
def Unfolds (h : Heap) (first : ℕ) : Options → Value → Prop
  | .leaf a, v => v = a ∧ v.isTable = false ∧ v.isNil = false
  | .node fields, v => ∃ t, v = .table t ∧ first ≤ t ∧ t < h.tables.length ∧
      Assoc.Distinct (h.fields t) ∧ UnfoldsFields h first fields (h.fields t)

/-- The fields of a table are those of a node. -/
def UnfoldsFields (h : Heap) (first : ℕ) : List (LuaKey × Options) → Fields → Prop
  | [], entries => entries = []
  | (k, t) :: rest, entries => ∃ v others, entries = (k, v) :: others ∧ Unfolds h first t v ∧
      UnfoldsFields h first rest others

end

variable {h h' : Heap} {first : ℕ}

/-- Fields are those of a node if they are so one by one. -/
theorem unfoldsFields_iff {fields : List (LuaKey × Options)} {entries : Fields} :
    UnfoldsFields h first fields entries ↔ Assoc.Related (Unfolds h first) fields entries := by
  induction fields generalizing entries with
  | nil =>
    rw [UnfoldsFields, Assoc.Related, List.forall₂_nil_left_iff]
  | cons f rest ih =>
    obtain ⟨k, t⟩ := f
    rw [UnfoldsFields, Assoc.Related, List.forall₂_cons_left_iff]
    constructor
    · rintro ⟨v, others, rfl, hv, hothers⟩
      exact ⟨(k, v), others, ⟨rfl, hv⟩, ih.mp hothers, rfl⟩
    · rintro ⟨⟨j, v⟩, others, ⟨rfl, hv⟩, hothers, rfl⟩
      exact ⟨v, others, rfl, hv, ih.mpr hothers⟩

/-- A value is a node if it is a table with its fields. -/
theorem unfolds_node {fields : List (LuaKey × Options)} {v : Value} :
    Unfolds h first (.node fields) v ↔ ∃ t, v = .table t ∧ first ≤ t ∧ t < h.tables.length ∧
      Assoc.Distinct (h.fields t) ∧ Assoc.Related (Unfolds h first) fields (h.fields t) := by
  simp only [Unfolds, unfoldsFields_iff]

namespace Unfolds

/-- A tree is not `nil`. -/
theorem isNil {tree : Options} {v : Value} (hv : Unfolds h first tree v) : v.isNil = false := by
  cases tree with
  | leaf a => exact hv.2.2
  | node fields =>
    obtain ⟨t, rfl, -⟩ := unfolds_node.mp hv
    rfl

/-- A table is a node. -/
theorem exists_fields {tree : Options} {v : Value} (hv : Unfolds h first tree v)
    (htable : v.isTable = true) : ∃ fields, tree = .node fields := by
  cases tree with
  | leaf a =>
    rw [hv.2.1] at htable
    cases htable
  | node fields => exact ⟨fields, rfl⟩

/-- No table of a tree is older than the first one. -/
theorem first_le {tree : Options} {t : ℕ} (hv : Unfolds h first tree (.table t)) : first ≤ t := by
  obtain ⟨fields, rfl⟩ := hv.exists_fields rfl
  obtain ⟨t', heq, hfirst, -⟩ := unfolds_node.mp hv
  cases heq
  exact hfirst

/-- In the tree each key stands once at every node. -/
theorem distinct {tree : Options} {v : Value} (hv : Unfolds h first tree v) : tree.Distinct := by
  induction tree using KeyTree.fieldInduction generalizing v with
  | leaf a => trivial
  | node fields ih =>
    obtain ⟨t, -, -, -, hdistinct, hfields⟩ := unfolds_node.mp hv
    refine KeyTree.distinct_node.mpr ⟨?_, ?_⟩
    · rw [Assoc.Distinct, hfields.keys]
      exact hdistinct
    · intro f hf
      obtain ⟨e, -, -, hvalue⟩ := hfields.exists_right hf
      exact ih f hf hvalue

/-- Tables that stay as they are unfold as before. -/
theorem frame {later : ℕ} {tree : Options} {v : Value} (hv : Unfolds h first tree v)
    (hlater : later ≤ first) (hlength : h.tables.length ≤ h'.tables.length)
    (hsame : ∀ t, first ≤ t → t < h.tables.length → h'.fields t = h.fields t) :
    Unfolds h' later tree v := by
  induction tree using KeyTree.fieldInduction generalizing v with
  | leaf a => exact hv
  | node fields ih =>
    obtain ⟨t, rfl, hfirst, ht, hdistinct, hfields⟩ := unfolds_node.mp hv
    refine unfolds_node.mpr ⟨t, rfl, le_trans hlater hfirst, lt_of_lt_of_le ht hlength, ?_⟩
    rw [hsame t hfirst ht]
    exact ⟨hdistinct, hfields.of_mem fun f hf w hw => ih f hf hw⟩

/-- With a lower bound the tree is the same. -/
theorem weaken {earlier : ℕ} {tree : Options} {v : Value} (hv : Unfolds h first tree v)
    (hle : earlier ≤ first) : Unfolds h earlier tree v :=
  hv.frame hle le_rfl fun _ _ _ => rfl

/-- A value unfolds to one tree. -/
theorem unique {other : ℕ} {tree tree' : Options} {v : Value} (hv : Unfolds h first tree v)
    (hv' : Unfolds h other tree' v) : tree = tree' := by
  induction tree using KeyTree.fieldInduction generalizing tree' v with
  | leaf a =>
    obtain ⟨rfl, htable, -⟩ := hv
    cases tree' with
    | leaf b => rw [hv'.1]
    | node fields =>
      obtain ⟨t, rfl, -⟩ := unfolds_node.mp hv'
      cases htable
  | node fields ih =>
    obtain ⟨t, rfl, -, -, -, hfields⟩ := unfolds_node.mp hv
    cases tree' with
    | leaf b => cases hv'.2.1
    | node fields' =>
      obtain ⟨t', heq, -, -, -, hfields'⟩ := unfolds_node.mp hv'
      obtain rfl := Value.table.inj heq
      rw [hfields.unique hfields' fun f hf w hw u hu => ih f hf hw hu]

/-- A field of a table unfolds to a lower tree. -/
theorem of_field {tree : Options} {t : ℕ} {k : LuaKey} {v : Value}
    (ht : Unfolds h first tree (.table t)) (hmem : (k, v) ∈ h.fields t) :
    ∃ subtree, Unfolds h first subtree v ∧ subtree.height < tree.height := by
  obtain ⟨fields, rfl⟩ := ht.exists_fields rfl
  obtain ⟨t', heq, -, -, -, hfields⟩ := unfolds_node.mp ht
  cases heq
  obtain ⟨f, hf, -, hv⟩ := hfields.exists_left hmem
  exact ⟨f.2, hv, Nat.lt_succ_of_le (KeyTree.height_le_of_mem hf)⟩

/-- The tables that are reached are those met on the way. -/
theorem of_reaches {tree : Options} {t s : ℕ} (ht : Unfolds h first tree (.table t))
    (hreach : Reaches h t s) :
    ∃ subtree, Unfolds h first subtree (.table s) ∧ subtree.height ≤ tree.height := by
  induction hreach with
  | refl => exact ⟨tree, ht, le_rfl⟩
  | field _ hmem ih =>
    obtain ⟨subtree, hs, hle⟩ := ih
    obtain ⟨below, hu, hlt⟩ := hs.of_field hmem
    exact ⟨below, hu, le_of_lt (lt_of_lt_of_le hlt hle)⟩

/-- A table that unfolds to a tree has no cycles. -/
theorem acyclic {tree : Options} {t : ℕ} (ht : Unfolds h first tree (.table t)) : Acyclic h t := by
  intro s hreach k u hmem hback
  obtain ⟨subtree, hs, -⟩ := ht.of_reaches hreach
  obtain ⟨below, hu, hlt⟩ := hs.of_field hmem
  obtain ⟨again, hs', hle⟩ := hu.of_reaches hback
  rw [hs.unique hs'] at hlt
  exact absurd hle (not_le_of_gt hlt)

end Unfolds

/-- What a reached table reaches is reached. -/
theorem Reaches.trans {t s u : ℕ} (hts : Reaches h t s) (hsu : Reaches h s u) : Reaches h t u := by
  induction hsu with
  | refl => exact hts
  | field _ hmem ih => exact .field ih hmem

/-- The fields of a table of the heap are in it. -/
theorem Heap.fields_mem {t : ℕ} (ht : t < h.tables.length) : h.fields t ∈ h.tables := by
  rw [Heap.fields, List.getD_eq_getElem _ _ ht]
  exact List.getElem_mem ht

/-- A table without cycles unfolds to a tree. -/
theorem exists_unfolds (hh : h.WellFormed) {t : ℕ} (ht : t < h.tables.length)
    (hacyclic : Acyclic h t) : ∃ tree, Unfolds h 0 tree (.table t) := by
  -- there are finitely many tables, so going to tables that do not lead back comes to an end
  let below (u s : Fin h.tables.length) : Prop := Reaches h s u ∧ ¬ Reaches h u s
  have htrans : IsTrans _ below := by
    refine ⟨fun u s r hus hsr => ⟨hsr.1.trans hus.1, fun hur => ?_⟩⟩
    exact hus.2 (hur.trans hsr.1)
  have hirrefl : Std.Irrefl below := ⟨fun s hs => hs.2 hs.1⟩
  have hends : WellFounded below := Finite.wellFounded_of_trans_of_irrefl below
  have hall (s : Fin h.tables.length) (hreach : Reaches h t s) :
      ∃ tree, Unfolds h 0 tree (.table s) := by
    induction s using hends.induction with
    | _ s ih =>
      have hs : h.fields s ∈ h.tables := Heap.fields_mem s.isLt
      have hvalues : ∀ e ∈ h.fields s, ∃ tree, Unfolds h 0 tree e.2 := by
        rintro ⟨k, v⟩ hmem
        cases htable : v.isTable with
        | false => exact ⟨.leaf v, rfl, htable, hh.notNil _ hs _ hmem⟩
        | true =>
          cases v with
          | table u =>
            have hback := hacyclic s hreach k u hmem
            exact ih ⟨u, hh.inside _ hs k u hmem⟩ ⟨.field .refl hmem, hback⟩ (.field hreach hmem)
          | _ => cases htable
      obtain ⟨fields, hfields⟩ := Assoc.exists_related hvalues
      exact ⟨.node fields, unfolds_node.mpr
        ⟨s, rfl, Nat.zero_le _, s.isLt, hh.distinct _ hs, hfields⟩⟩
  exact hall ⟨t, ht⟩ .refl

end Radapter.Graph
