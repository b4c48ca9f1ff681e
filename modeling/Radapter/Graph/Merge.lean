import Radapter.Graph.Unfold

/-!
# Merging tables

`merge` makes new tables and fills them field by field, so at every moment the tables that were
there before a call are as they were, and those of an unfinished table are newer than the table
itself. With this a call comes to what merging the trees gives.

The recursion calls the function itself for what is under a key, with the same check of its
arguments: a table of `overrides` over a scalar that `defaults` have there is an error. Where one of
two tables counts as a list, only what `ipairs` visits in `overrides` is taken, so fields of
`overrides` get lost when they are put over a list. What is put over is a copy below the root, and a
copy may count as a list where the table of `defaults` does not: then more gets lost.
-/

namespace Radapter.Graph

open Library Lua

/-- What a call of `merge` ends with. -/
inductive Merged where
  | raised
  | made (h : Heap) (t : ℕ)

/-- The pairs of `pairs(value or {})`. -/
def Heap.pairs (h : Heap) : Value → Fields
  | .table t => h.fields t
  | _ => []

/-- `is_list`, for a value with the length. -/
def is_list (length : ℕ) (value : Value) : Prop := value.isTable = true ∧ 0 < length

instance (length : ℕ) (value : Value) : Decidable (is_list length value) :=
  inferInstanceAs (Decidable (_ ∧ _))

/-- A loop that fills `result`: a table is stored as what `merge` makes of it, any other value as it
is. The fields can be read beforehand, because no call changes the table that has them. -/
def putEach (mergeTable : Heap → LuaKey → Value → Option Merged) (result : ℕ) :
    Heap → Fields → Option Merged
  | h, [] => some (.made h result)
  | h, (key, value) :: rest =>
      if value.isTable then
        match mergeTable h key value with
        | some (.made h t) => putEach mergeTable result (h.rawset result key (.table t)) rest
        | ended => ended
      else putEach mergeTable result (h.rawset result key value) rest

/-- `merge` with a bound on the calls that are open at a time; none when it does not suffice. The
lengths are those of the tables at and below the two arguments. -/
def merge : ℕ → Lengths → Heap → Value → Value → Option Merged
  | 0, _, _, _, _ => none
  | calls + 1, lens, h, defaults, overrides =>
      if ¬ (defaults.isNil ∨ defaults.isTable) then some .raised
      else if ¬ (overrides.isNil ∨ overrides.isTable) then some .raised
      else if ¬ overrides.isNil ∧
          (is_list (lens.overrides []) overrides ∨ is_list (lens.compared []) defaults) then
        putEach (fun h index value => merge calls (lens.below index) h .nil value) h.tables.length
          h.newtable (ipairs (h.pairs overrides))
      else
        match putEach (fun h key value => merge calls (lens.below key) h value .nil)
            h.tables.length h.newtable (h.pairs defaults) with
        | some (.made h result) =>
            putEach
              (fun h key value =>
                merge calls (lens.below key) h (rawget (h.fields result) key) value)
              result h (h.pairs overrides)
        | ended => ended

variable {lens : Lengths} {h now later : Heap}

/-! ## Older tables -/

/-- The tables of the first heap are as they were. -/
structure Heap.Extends (h later : Heap) : Prop where
  length_le : h.tables.length ≤ later.tables.length
  fields_eq (t : ℕ) (ht : t < h.tables.length) : later.fields t = h.fields t

/-- No table changes when nothing happens. -/
theorem Heap.Extends.refl (h : Heap) : h.Extends h := ⟨le_rfl, fun _ _ => rfl⟩

/-- What is kept by both of two calls is kept. -/
theorem Heap.Extends.trans (hnow : h.Extends now) (hlater : now.Extends later) :
    h.Extends later where
  length_le := le_trans hnow.length_le hlater.length_le
  fields_eq t ht := by
    rw [hlater.fields_eq t (lt_of_lt_of_le ht hnow.length_le), hnow.fields_eq t ht]

/-- A new table leaves the others as they were. -/
theorem Heap.extends_newtable (h : Heap) : h.Extends h.newtable where
  length_le := by rw [Heap.length_newtable]; exact Nat.le_succ _
  fields_eq t _ := Heap.fields_newtable t

/-- A table that is not in the first heap can be changed. -/
theorem Heap.Extends.rawset (hnow : h.Extends now) {t : ℕ} (ht : h.tables.length ≤ t) (k : LuaKey)
    (v : Value) : h.Extends (now.rawset t k v) where
  length_le := by rw [Heap.length_rawset]; exact hnow.length_le
  fields_eq s hs := by
    rw [Heap.fields_rawset_ne (Nat.ne_of_lt (lt_of_lt_of_le hs ht)), hnow.fields_eq s hs]

/-- A value stays the tree that it is. -/
theorem Unfolds.of_extends {first : ℕ} {tree : Options} {v : Value}
    (hv : Unfolds h first tree v) (hlater : h.Extends later) : Unfolds later first tree v :=
  hv.frame le_rfl hlater.length_le fun t _ ht => hlater.fields_eq t ht

/-! ## Filling a table -/

/-- The new table, made after those of the first heap, has the fields of a node, and their tables
are newer than itself. -/
structure Building (h now : Heap) (fields : List (LuaKey × Options)) : Prop where
  old : h.Extends now
  inside : h.tables.length < now.tables.length
  distinct : Assoc.Distinct (now.fields h.tables.length)
  related : Assoc.Related (Unfolds now (h.tables.length + 1)) fields (now.fields h.tables.length)

namespace Building

/-- The new table is empty at first. -/
theorem start (h : Heap) : Building h h.newtable [] where
  old := h.extends_newtable
  inside := by rw [Heap.length_newtable]; exact Nat.lt_succ_self _
  distinct := by rw [Heap.fields_newtable_self]; exact List.nodup_nil
  related := by rw [Heap.fields_newtable_self]; exact .nil

/-- Storing a value that unfolds to newer tables. -/
theorem store {fields : List (LuaKey × Options)} (hnow : Building h now fields)
    (hlater : now.Extends later) {tree : Options} {v : Value}
    (hv : Unfolds later now.tables.length tree v) (k : LuaKey) :
    Building h (later.rawset h.tables.length k v) (Assoc.put k tree fields) := by
  have hinside : h.tables.length < later.tables.length :=
    lt_of_lt_of_le hnow.inside hlater.length_le
  have hresult : (later.rawset h.tables.length k v).fields h.tables.length =
      Assoc.put k v (now.fields h.tables.length) := by
    rw [Heap.fields_rawset_self hinside, Graph.rawset, hv.isNil, if_neg Bool.false_ne_true,
      hlater.fields_eq _ hnow.inside]
  -- the tables of the fields are newer than the one that is changed
  have hframe {first : ℕ} {t : Options} {w : Value} (hfirst : h.tables.length + 1 ≤ first)
      (hw : Unfolds later first t w) :
      Unfolds (later.rawset h.tables.length k v) (h.tables.length + 1) t w := by
    refine hw.frame hfirst (Nat.le_of_eq (Heap.length_rawset ..).symm) fun s hs _ => ?_
    exact Heap.fields_rawset_ne (by omega) ..
  constructor
  · exact (hnow.old.trans hlater).rawset le_rfl k v
  · rw [Heap.length_rawset]
    exact hinside
  · rw [hresult]
    exact Assoc.distinct_put k v hnow.distinct
  · rw [hresult]
    have hfields := hnow.related.of_mem fun _ _ w hw => hframe le_rfl (hw.of_extends hlater)
    exact hfields.put k (hframe hnow.inside hv)

/-- The finished table unfolds to the node. -/
theorem unfolds {fields : List (LuaKey × Options)} (hnow : Building h now fields) :
    Unfolds now h.tables.length (.node fields) (.table h.tables.length) := by
  refine unfolds_node.mpr ⟨_, rfl, le_rfl, hnow.inside, hnow.distinct, ?_⟩
  exact hnow.related.of_mem fun _ _ w hw => hw.weaken (Nat.le_succ _)

end Building

/-! ## One loop -/

/-- A call ends as the trees say: with an error, or with a new table and the older ones as they
were. -/
def Gives (h : Heap) (ended : Option Merged) : Option Options → Prop
  | none => ended = some .raised
  | some tree => ∃ later t, ended = some (.made later t) ∧ h.Extends later ∧
      Unfolds later h.tables.length tree (.table t)

/-- A loop ends as the trees say: with an error, or with the fields stored in the new table. -/
def Fills (h : Heap) (ended : Option Merged) : Option (List (LuaKey × Options)) → Prop
  | none => ended = some .raised
  | some fields => ∃ later, ended = some (.made later h.tables.length) ∧ Building h later fields

/-- A call that has filled its table ends as the trees say. -/
theorem Fills.gives {ended : Option Merged} {result : Option (List (LuaKey × Options))}
    (hfills : Fills h ended result) : Gives h ended (result.map .node) := by
  cases result with
  | none => exact hfills
  | some fields =>
    obtain ⟨later, hended, hlater⟩ := hfills
    exact ⟨later, _, hended, hlater.old, hlater.unfolds⟩

/-- A loop over fields does what the trees say if every call in it does. -/
theorem putEach_fills {mergeTable : Heap → LuaKey → Value → Option Merged}
    {make : LuaKey → Options → Option Options} {result fields : List (LuaKey × Options)}
    {entries : Fields} {calls : ℕ} (start : List (LuaKey × Options))
    (hleaf : ∀ k a, make k (.leaf a) = some (.leaf a))
    (hcall : ∀ (k : LuaKey) (inner : List (LuaKey × Options)) (now : Heap)
      (result : List (LuaKey × Options)) (w : Value), Building h now result →
        result.lookup k = start.lookup k → Unfolds now 0 (.node inner) w →
          (KeyTree.node inner).height ≤ calls →
            Gives now (mergeTable now k w) (make k (.node inner)))
    (hdistinct : Assoc.Distinct fields) (hheight : ∀ f ∈ fields, f.2.height ≤ calls)
    (hsame : ∀ f ∈ fields, result.lookup f.1 = start.lookup f.1)
    (hfields : Assoc.Related (Unfolds h 0) fields entries) (hnow : Building h now result) :
    Fills h (putEach mergeTable h.tables.length now entries) (storeEach make result fields) := by
  induction hfields generalizing now result with
  | nil => exact ⟨now, rfl, hnow⟩
  | @cons f e rest others hfirst _ ih =>
    obtain ⟨k, tree⟩ := f
    obtain ⟨k', v⟩ := e
    obtain ⟨hk, hv⟩ := hfirst
    obtain rfl : k = k' := hk
    obtain ⟨hfresh, hrest⟩ := List.nodup_cons.mp hdistinct
    obtain ⟨hfirstHeight, hrestHeight⟩ := List.forall_mem_cons.mp hheight
    obtain ⟨hfirstSame, hrestSame⟩ := List.forall_mem_cons.mp hsame
    have hstored (x : Options) :
        ∀ f ∈ rest, (Assoc.put k x result).lookup f.1 = start.lookup f.1 := by
      intro f hf
      have hne : f.1 ≠ k := fun hk => hfresh (List.mem_map.mpr ⟨f, hf, hk⟩)
      rw [Assoc.lookup_put_ne hne, hrestSame f hf]
    rw [storeEach, putEach]
    cases tree with
    | leaf a =>
      obtain ⟨rfl, htable, hnil⟩ := hv
      have hunfolds : Unfolds now now.tables.length (.leaf v) v := ⟨rfl, htable, hnil⟩
      rw [hleaf, Option.bind_some, htable, if_neg Bool.false_ne_true]
      exact ih hrest hrestHeight (hstored _) (hnow.store (.refl now) hunfolds k)
    | node inner =>
      have hgives := hcall k inner now result v hnow hfirstSame (Unfolds.of_extends hv hnow.old)
        hfirstHeight
      obtain ⟨t, rfl, -⟩ := hv
      rw [if_pos (show (Value.table t).isTable = true from rfl)]
      cases hx : make k (.node inner) with
      | none =>
        rw [hx] at hgives
        rw [show mergeTable now k (.table t) = some .raised from hgives]
        rfl
      | some x =>
        rw [hx] at hgives
        obtain ⟨later, t', hended, hlater, hunfolds⟩ := hgives
        rw [hended]
        exact ih hrest hrestHeight (hstored x) (hnow.store hlater hunfolds k)

/-! ## Calls -/

/-- The value of a place in a tree: `nil` where there is nothing. -/
def Stands (h : Heap) : Option Options → Value → Prop
  | none, v => v = .nil
  | some tree, v => Unfolds h 0 tree v

/-- Over a scalar `merge` raises an error; `nil` and tables pass the check. -/
theorem Stands.isNil_or_isTable {d : Option Options} {v : Value} (hd : Stands h d v) :
    (v.isNil = true ∨ v.isTable = true) ↔ ∀ a, d ≠ some (.leaf a) := by
  cases d with
  | none =>
    obtain rfl : v = .nil := hd
    simp [Value.isNil]
  | some tree =>
    cases tree with
    | leaf a =>
      obtain ⟨-, htable, hnil⟩ := hd
      simp [htable, hnil]
    | node fields =>
      obtain ⟨t, rfl, -⟩ := hd
      simp [Value.isTable]

/-- Whether a table counts as a list can be seen from the tree. -/
theorem Stands.is_list_iff {d : Option Options} {v : Value} (hd : Stands h d v) :
    is_list (lens.compared []) v ↔ ListAt lens d := by
  cases d with
  | none =>
    obtain rfl : v = .nil := hd
    exact iff_of_false (fun hlist => Bool.false_ne_true hlist.1) id
  | some tree =>
    cases tree with
    | leaf a => exact iff_of_false (fun hlist => Bool.false_ne_true (hd.2.1.symm.trans hlist.1)) id
    | node fields =>
      obtain ⟨t, rfl, -⟩ := unfolds_node.mp hd
      exact and_iff_right rfl

/-- What stands under a key of a table that is being filled. -/
theorem Building.stands {fields : List (LuaKey × Options)} (hnow : Building h now fields)
    (k : LuaKey) : Stands now (fields.lookup k) (rawget (now.fields h.tables.length) k) := by
  rw [rawget]
  have hlookup := hnow.related.lookup k
  revert hlookup
  generalize fields.lookup k = d
  generalize (now.fields h.tables.length).lookup k = found
  intro hlookup
  cases hlookup with
  | none => rfl
  | some hv => exact hv.weaken (Nat.zero_le _)

/-- The loop over `defaults` copies its fields if every call in it makes a copy. -/
theorem putEach_copy {calls : ℕ} {d : Option Options} {v : Value}
    (hcopy : ∀ (now : Heap) (inner : List (LuaKey × Options)) (w : Value) (k : LuaKey),
      Unfolds now 0 (.node inner) w → (KeyTree.node inner).height ≤ calls →
        Gives now (merge calls (lens.below k) now w .nil) (some (.node inner)))
    (hd : Stands h d v) (hnotLeaf : ∀ a, d ≠ some (.leaf a))
    (hcalls : ∀ tree ∈ d, tree.height ≤ calls + 1) :
    Fills h (putEach (fun now k value => merge calls (lens.below k) now value .nil)
      h.tables.length h.newtable (h.pairs v)) (some (fieldsAt d)) := by
  cases d with
  | none =>
    obtain rfl : v = .nil := hd
    exact ⟨h.newtable, rfl, .start h⟩
  | some tree =>
    cases tree with
    | leaf a => exact absurd rfl (hnotLeaf a)
    | node fields =>
      obtain ⟨hkeys, -⟩ := KeyTree.distinct_node.mp (Unfolds.distinct hd)
      obtain ⟨t, rfl, -, -, -, hfields⟩ := unfolds_node.mp hd
      have hstored : storeEach (fun _ tree => some tree) [] fields = some fields := by
        have hall := @storeEach_some (fun _ tree => some tree) (fun _ tree => tree)
          (fun _ _ => rfl) [] fields hkeys
        simpa using hall
      rw [fieldsAt, ← hstored]
      exact putEach_fills [] (fun _ _ => rfl)
        (fun k inner now _ w _ _ hw => hcopy now inner w k hw) hkeys
        (KeyTree.height_le_of_node (hcalls _ rfl)) (fun _ _ => rfl) hfields (.start h)

/-- The loop over the items copies them if every call in it puts a table over `nil`. -/
theorem putEach_items {calls t : ℕ} {fields : List (LuaKey × Options)}
    (hitem : ∀ (now : Heap) (inner : List (LuaKey × Options)) (w : Value) (k : LuaKey),
      Unfolds now 0 (.node inner) w → (KeyTree.node inner).height ≤ calls →
        Gives now (merge calls (lens.below k) now .nil w)
          (overlayAt (lens.below k) none (.node inner)))
    (hfields : Assoc.Related (Unfolds h 0) fields (h.fields t))
    (hheight : (KeyTree.node fields).height ≤ calls + 1) :
    Fills h (putEach (fun now k value => merge calls (lens.below k) now .nil value)
      h.tables.length h.newtable (ipairs (h.fields t)))
        (some (ipairs (copyFields lens fields))) := by
  have hstored : storeEach (fun k tree => overlayAt (lens.below k) none tree) [] (ipairs fields) =
      some (ipairs (copyFields lens fields)) := by
    rw [ipairs_copyFields]
    exact @storeEach_some _ (fun k tree => copyOver (lens.below k) tree) (fun _ _ => rfl) [] _
      (distinct_ipairs fields)
  rw [← hstored]
  exact putEach_fills [] (fun _ _ => rfl)
    (fun k inner now _ w _ _ hw => hitem now inner w k hw)
    (distinct_ipairs fields)
    (fun f hf => KeyTree.height_le_of_node hheight f (mem_of_mem_ipairs hf)) (fun _ _ => rfl)
    (related_ipairs hfields) (.start h)

/-- Where lists are taken, a new table gets the items. -/
theorem merge_lists {calls : ℕ} {defaults : Value} {t : ℕ}
    (hpass : defaults.isNil = true ∨ defaults.isTable = true)
    (hlist : is_list (lens.overrides []) (.table t) ∨ is_list (lens.compared []) defaults) :
    merge (calls + 1) lens h defaults (.table t) =
      putEach (fun now k value => merge calls (lens.below k) now .nil value) h.tables.length
        h.newtable (ipairs (h.fields t)) := by
  have hpass' : (Value.table t).isNil = true ∨ (Value.table t).isTable = true := Or.inr rfl
  rw [merge, if_neg (not_not_intro hpass), if_neg (not_not_intro hpass'),
    if_pos ⟨Bool.false_ne_true, hlist⟩]
  rfl

/-- Else `overrides` are stored after the copies of `defaults`. -/
theorem merge_maps {calls result : ℕ} {defaults overrides : Value}
    (hpass : defaults.isNil = true ∨ defaults.isTable = true)
    (hpass' : overrides.isNil = true ∨ overrides.isTable = true)
    (hmap : ¬ (¬ overrides.isNil = true ∧
      (is_list (lens.overrides []) overrides ∨ is_list (lens.compared []) defaults)))
    (hfirst : putEach (fun now k value => merge calls (lens.below k) now value .nil)
      h.tables.length h.newtable (h.pairs defaults) = some (.made later result)) :
    merge (calls + 1) lens h defaults overrides =
      putEach
        (fun now k value => merge calls (lens.below k) now (rawget (now.fields result) k) value)
        result later (later.pairs overrides) := by
  rw [merge, if_neg (not_not_intro hpass), if_neg (not_not_intro hpass'), if_neg hmap, hfirst]

/-- `merge(value, nil)` makes a copy. -/
theorem merge_copy {calls : ℕ} {fields : List (LuaKey × Options)} {v : Value}
    (hv : Unfolds h 0 (.node fields) v) (hcalls : (KeyTree.node fields).height ≤ calls) :
    Gives h (merge calls lens h v .nil) (some (.node fields)) := by
  induction calls generalizing lens h fields v with
  | zero => cases hcalls
  | succ calls ih =>
    have hd : Stands h (some (.node fields)) v := hv
    have hnotLeaf (a : Value) : some (KeyTree.node fields) ≠ some (.leaf a) := by simp
    have hpass := hd.isNil_or_isTable.mpr hnotLeaf
    have hbound : ∀ tree ∈ some (KeyTree.node fields), tree.height ≤ calls + 1 := by
      simpa using hcalls
    obtain ⟨later, hended, hlater⟩ :=
      @putEach_copy lens h calls _ v (fun _ _ _ _ hw hheight => ih hw hheight) hd hnotLeaf hbound
    refine ⟨later, _, ?_, hlater.old, hlater.unfolds⟩
    rw [merge_maps hpass (Or.inl rfl) (fun hlist => hlist.1 rfl) hended]
    rfl

/-- A call of `merge` with a table to put over something does what merging the trees does. -/
theorem merge_gives {calls : ℕ} {d : Option Options} {fields : List (LuaKey × Options)}
    {defaults overrides : Value} (hd : Stands h d defaults)
    (hv : Unfolds h 0 (.node fields) overrides) (hcalls : ∀ tree ∈ d, tree.height ≤ calls)
    (hheight : (KeyTree.node fields).height ≤ calls) :
    Gives h (merge calls lens h defaults overrides) (overlayAt lens d (.node fields)) := by
  induction calls generalizing lens h d fields defaults overrides with
  | zero => cases hheight
  | succ calls ih =>
    obtain ⟨hkeys, -⟩ := KeyTree.distinct_node.mp hv.distinct
    obtain ⟨t, rfl, -, hinside, -, hfields⟩ := unfolds_node.mp hv
    by_cases hleaf : ∃ a, d = some (.leaf a)
    · obtain ⟨a, rfl⟩ := hleaf
      have hfails : ¬ (defaults.isNil = true ∨ defaults.isTable = true) :=
        fun hpass => hd.isNil_or_isTable.mp hpass a rfl
      rw [overlayAt_scalar, merge, if_pos hfails]
      rfl
    have hnotLeaf := not_exists.mp hleaf
    have hpass := hd.isNil_or_isTable.mpr hnotLeaf
    have hlist : is_list (lens.overrides []) (.table t) ∨ is_list (lens.compared []) defaults ↔
        TakesItems lens d := by
      rw [hd.is_list_iff]
      exact or_congr_left (and_iff_right rfl)
    rw [overlayAt_node hkeys hnotLeaf]
    by_cases hlists : TakesItems lens d
    · -- the items are copied, each over `nil`
      rw [if_pos hlists, merge_lists hpass (hlist.mpr hlists)]
      have hitem (now : Heap) (inner : List (LuaKey × Options)) (w : Value) (k : LuaKey)
          (hw : Unfolds now 0 (.node inner) w) (hinner : (KeyTree.node inner).height ≤ calls) :
          Gives now (merge calls (lens.below k) now .nil w)
            (overlayAt (lens.below k) none (.node inner)) :=
        @ih (lens.below k) now none inner .nil w rfl hw (by simp) hinner
      exact (putEach_items hitem hfields hheight).gives
    · -- `overrides` go over the copy of `defaults`, which is in the table that is being filled
      obtain ⟨later, hended, hlater⟩ :=
        @putEach_copy lens h calls d defaults (fun _ _ _ _ hw hinner => merge_copy hw hinner) hd
          hnotLeaf hcalls
      have hmap : ¬ (¬ (Value.table t).isNil = true ∧
          (is_list (lens.overrides []) (.table t) ∨ is_list (lens.compared []) defaults)) :=
        fun hboth => hlists (hlist.mp hboth.2)
      have hentries : later.pairs (.table t) = h.fields t := hlater.old.fields_eq t hinside
      rw [if_neg hlists, merge_maps hpass (Or.inr rfl) hmap hended, hentries]
      refine Fills.gives (putEach_fills (fieldsAt d) (fun k a => overlayAt_leaf ..) ?_ hkeys
        (KeyTree.height_le_of_node hheight) (fun _ _ => rfl) hfields hlater)
      intro k inner now result w hnow hsame hw hinner
      have hstands : Stands now (under d k) (rawget (now.fields h.tables.length) k) := by
        rw [under, ← hsame]
        exact hnow.stands k
      exact ih hstands hw (height_le_of_under hcalls k) hinner

/-! ## Enough calls -/

/-- A loop whose calls end ends with a larger bound, and with the same. -/
theorem putEach_mono {mergeTable other : Heap → LuaKey → Value → Option Merged} {result : ℕ}
    {entries : Fields} {ended : Merged}
    (hmono : ∀ now k v ended, mergeTable now k v = some ended → other now k v = some ended)
    (hended : putEach mergeTable result h entries = some ended) :
    putEach other result h entries = some ended := by
  induction entries generalizing h with
  | nil => exact hended
  | cons e rest ih =>
    obtain ⟨k, v⟩ := e
    rw [putEach] at hended ⊢
    by_cases htable : v.isTable = true
    · rw [if_pos htable] at hended ⊢
      cases hcall : mergeTable h k v with
      | none =>
        rw [hcall] at hended
        cases hended
      | some called =>
        rw [hcall] at hended
        rw [hmono h k v called hcall]
        cases called with
        | raised => exact hended
        | made later t => exact ih hended
    · rw [if_neg htable] at hended ⊢
      exact ih hended

/-- With more calls `merge` ends the same. -/
theorem merge_succ {calls : ℕ} {defaults overrides : Value} {ended : Merged}
    (hended : merge calls lens h defaults overrides = some ended) :
    merge (calls + 1) lens h defaults overrides = some ended := by
  induction calls generalizing lens h defaults overrides ended with
  | zero => cases hended
  | succ calls ih =>
    rw [merge] at hended ⊢
    by_cases hdefaults : ¬ (defaults.isNil = true ∨ defaults.isTable = true)
    · rwa [if_pos hdefaults] at hended ⊢
    rw [if_neg hdefaults] at hended ⊢
    by_cases hoverrides : ¬ (overrides.isNil = true ∨ overrides.isTable = true)
    · rwa [if_pos hoverrides] at hended ⊢
    rw [if_neg hoverrides] at hended ⊢
    by_cases hlists : ¬ overrides.isNil = true ∧
        (is_list (lens.overrides []) overrides ∨ is_list (lens.compared []) defaults)
    · rw [if_pos hlists] at hended ⊢
      exact putEach_mono (fun _ _ _ _ hcall => ih hcall) hended
    · rw [if_neg hlists] at hended ⊢
      cases hfirst : putEach (fun now k value => merge calls (lens.below k) now value .nil)
          h.tables.length h.newtable (h.pairs defaults) with
      | none =>
        rw [hfirst] at hended
        cases hended
      | some first =>
        rw [hfirst] at hended
        rw [putEach_mono (fun _ _ _ _ hcall => ih hcall) hfirst]
        cases first with
        | raised => exact hended
        | made later result => exact putEach_mono (fun _ _ _ _ hcall => ih hcall) hended

/-- So does a call of `merge`. -/
theorem merge_mono {calls more : ℕ} (hle : calls ≤ more) {defaults overrides : Value}
    {ended : Merged} (hended : merge calls lens h defaults overrides = some ended) :
    merge more lens h defaults overrides = some ended := by
  induction hle with
  | refl => exact hended
  | step _ ih => exact merge_succ ih

/-! ## All options -/

/-- `merge` ends with a table, it and those below it are new, the older ones are as they were, and
in the result are all leaves that should be. -/
def MergesWell (lens : Lengths) (h : Heap) (t u : ℕ) (defaults overrides : Options) : Prop :=
  ∃ later result tree, (∃ enough, ∀ calls, enough ≤ calls →
      merge calls lens h (.table t) (.table u) = some (.made later result)) ∧
    h.Extends later ∧ (∀ s, Reaches later result s → h.tables.length ≤ s) ∧
    Unfolds later 0 tree (.table result) ∧ KeepsLeaves lens defaults overrides tree

/-- Over options without cycles, `merge` does well exactly if they can be merged. -/
theorem mergesWell_of_unfolds {t u : ℕ} {defaults overrides : Options}
    (ht : Unfolds h 0 defaults (.table t)) (hu : Unfolds h 0 overrides (.table u)) :
    MergesWell lens h t u defaults overrides ↔ Mergeable lens defaults overrides := by
  obtain ⟨fields, rfl⟩ := hu.exists_fields rfl
  have hgives (calls : ℕ) (hcalls : max defaults.height (KeyTree.node fields).height ≤ calls) :
      Gives h (merge calls lens h (.table t) (.table u))
        (overlay lens defaults (.node fields)) := by
    have hd : Stands h (some defaults) (.table t) := ht
    have hheight : ∀ tree ∈ some defaults, tree.height ≤ calls := by
      simpa using le_trans (le_max_left ..) hcalls
    exact merge_gives hd hu hheight (le_trans (le_max_right ..) hcalls)
  rw [← keepsLeaves_iff_mergeable hu.distinct]
  constructor
  · rintro ⟨later, result, tree, ⟨enough, hended⟩, -, -, htree, hkeeps⟩
    have hended := hended _ (le_max_right (max defaults.height (KeyTree.node fields).height) enough)
    have hgives := hgives _ (le_max_left _ enough)
    rw [hended] at hgives
    cases hr : overlay lens defaults (.node fields) with
    | none =>
      rw [hr] at hgives
      cases hgives
    | some r =>
      rw [hr] at hgives
      obtain ⟨later', result', heq, -, hr'⟩ := hgives
      cases heq
      exact ⟨r, rfl, htree.unique hr' ▸ hkeeps⟩
  · rintro ⟨r, hr, hkeeps⟩
    have hgives := hgives _ le_rfl
    rw [hr] at hgives
    obtain ⟨later, result, hended, hlater, hunfolds⟩ := hgives
    refine ⟨later, result, r, ⟨_, fun calls hcalls => merge_mono hcalls hended⟩, hlater, ?_, ?_,
      hkeeps⟩
    · intro s hreach
      obtain ⟨tree, hs, -⟩ := hunfolds.of_reaches hreach
      exact hs.first_le
    · exact hunfolds.weaken (Nat.zero_le _)

/-- For tables without cycles `merge` does what it should exactly if their trees can be merged. -/
theorem mergesWell_iff (lens : Lengths) {h : Heap} {t u : ℕ} (hh : h.WellFormed)
    (ht : t < h.tables.length) (hu : u < h.tables.length) (htacyclic : Acyclic h t)
    (huacyclic : Acyclic h u) :
    ∃ defaults overrides, Unfolds h 0 defaults (.table t) ∧ Unfolds h 0 overrides (.table u) ∧
      (MergesWell lens h t u defaults overrides ↔ Mergeable lens defaults overrides) := by
  obtain ⟨defaults, hdefaults⟩ := exists_unfolds hh ht htacyclic
  obtain ⟨overrides, hoverrides⟩ := exists_unfolds hh hu huacyclic
  exact ⟨defaults, overrides, hdefaults, hoverrides, mergesWell_of_unfolds hdefaults hoverrides⟩

/-- The tables `{a = 1}` and `{b = 2}`. -/
def besides : Heap := ⟨[[(.string [97], .integer 1)], [(.string [98], .integer 2)]], []⟩

/-- No table counts as a list. -/
def Lengths.none : Lengths := ⟨fun _ => 0, fun _ => 0, fun _ => 0⟩

/-- `merge({a = 1}, {b = 2})` has both fields. -/
theorem mergesWell_besides : MergesWell .none besides 0 1
    (.node [(.string [97], .leaf (.integer 1))]) (.node [(.string [98], .leaf (.integer 2))]) := by
  have ht : Unfolds besides 0 (.node [(.string [97], .leaf (.integer 1))]) (.table 0) :=
    ⟨0, rfl, by decide, by decide, List.nodup_singleton _, _, _, rfl, ⟨rfl, rfl, rfl⟩, rfl⟩
  have hu : Unfolds besides 0 (.node [(.string [98], .leaf (.integer 2))]) (.table 1) :=
    ⟨1, rfl, by decide, by decide, List.nodup_singleton _, _, _, rfl, ⟨rfl, rfl, rfl⟩, rfl⟩
  have hh : besides.WellFormed := by
    constructor <;> simp [besides, Assoc.Distinct, Value.isNil]
  obtain ⟨defaults, overrides, ht', hu', hiff⟩ :=
    mergesWell_iff .none hh (by decide) (by decide) ht.acyclic hu.acyclic
  obtain rfl := ht.unique ht'
  obtain rfl := hu.unique hu'
  refine hiff.mpr ⟨?_, ?_, ?_⟩
  · intro path hpath
    cases path with
    | nil => exact hpath
    | cons k path =>
      obtain ⟨-, t, hk, hpath⟩ := tableOverScalar_cons.mp hpath
      obtain ⟨-, rfl⟩ := by simpa using Assoc.mem_of_lookup hk
      exact not_tableOverScalar_leaf hpath
  · intro path a hleaf
    cases path with
    | nil => trivial
    | cons k path =>
      rw [VisitedAlong, if_neg (by decide)]
      intro t hk
      obtain ⟨-, rfl⟩ := by simpa using Assoc.mem_of_lookup hk
      cases path <;> trivial
  · intro path a hleaf _
    cases path with
    | nil => trivial
    | cons k path =>
      refine ⟨rfl, fun d t hd ht => ?_⟩
      obtain ⟨-, rfl⟩ := by simpa using Assoc.mem_of_lookup hd
      cases path <;> trivial

/-- The tables `{a = 1}` and `{a = {b = 2}}`. -/
def tableOverNumber : Heap :=
  ⟨[[(.string [97], .integer 1)], [(.string [97], .table 2)], [(.string [98], .integer 2)]], []⟩

/-- `merge({a = 1}, {a = {b = 2}})` raises an error: the inner call gets `1` as `defaults`. -/
theorem not_mergesWell_tableOverNumber : tableOverNumber.WellFormed ∧
    Unfolds tableOverNumber 0 (.node [(.string [97], .leaf (.integer 1))]) (.table 0) ∧
    Unfolds tableOverNumber 0
      (.node [(.string [97], .node [(.string [98], .leaf (.integer 2))])]) (.table 1) ∧
    ¬ MergesWell .none tableOverNumber 0 1 (.node [(.string [97], .leaf (.integer 1))])
      (.node [(.string [97], .node [(.string [98], .leaf (.integer 2))])]) := by
  refine ⟨?_, ?_, ?_, ?_⟩
  · constructor <;> simp [tableOverNumber, Assoc.Distinct, Value.isNil]
  · exact ⟨0, rfl, by decide, by decide, List.nodup_singleton _, _, _, rfl, ⟨rfl, rfl, rfl⟩, rfl⟩
  · refine ⟨1, rfl, by decide, by decide, List.nodup_singleton _, _, _, rfl, ?_, rfl⟩
    exact ⟨2, rfl, by decide, by decide, List.nodup_singleton _, _, _, rfl, ⟨rfl, rfl, rfl⟩, rfl⟩
  · rintro ⟨later, result, -, ⟨enough, hended⟩, -⟩
    have hraised : merge 2 .none tableOverNumber (.table 0) (.table 1) = some .raised := rfl
    have hmade := hended _ (le_max_left enough 2)
    rw [merge_mono (le_max_right enough 2) hraised] at hmade
    cases hmade

end Radapter.Graph
