import Radapter.Library.KeyTree
import Radapter.Graph.Value

/-!
# Merging trees

What `merge` makes of options, as trees: it puts the fields of `overrides` over those of `defaults`,
table by table, and where one of two tables counts as a list it takes the items of `overrides`
instead. A table over a scalar is the one thing it does not take.

A table counts as a list when the length operator gives a positive number. Lua promises some border
of the table. Which one depends on how the table was built: the border of a copy need not be that of
the table it is copied from, and tables with the same fields may have different ones. So for each
place in the options three numbers are given, any that there may be.
-/

namespace Radapter.Graph

open Library Lua

/-- Options without cycles. -/
abbrev Options := KeyTree LuaKey Value

/-- The pairs that `ipairs` visits from an index on. A table has no more indices in a row than
fields. -/
def ipairsFrom {β : Type} (fields : List (LuaKey × β)) : ℕ → ℕ → List (LuaKey × β)
  | 0, _ => []
  | rounds + 1, i =>
      match fields.lookup (.integer i) with
      | none => []
      | some v => (.integer i, v) :: ipairsFrom fields rounds (i + 1)

/-- The pairs that `ipairs` visits. -/
def ipairs {β : Type} (fields : List (LuaKey × β)) : List (LuaKey × β) :=
  ipairsFrom fields fields.length 1

/-- What the length operator gives for the tables at each place of the options: for that of
`overrides`, for that of `defaults`, and for the table that `merge` gets as `defaults` there, which
below the root is a copy. -/
structure Lengths where
  overrides : List LuaKey → ℕ
  defaults : List LuaKey → ℕ
  compared : List LuaKey → ℕ

/-- The lengths of the options under a key. -/
def Lengths.below (lens : Lengths) (k : LuaKey) : Lengths where
  overrides place := lens.overrides (k :: place)
  defaults place := lens.defaults (k :: place)
  compared place := lens.compared (k :: place)

mutual

/-- `merge(nil, value)`. -/
def copyOver (lens : Lengths) : Options → Options
  | .leaf a => .leaf a
  | .node fields =>
      if 0 < lens.overrides [] then .node (ipairs (copyFields lens fields))
      else .node (copyFields lens fields)

/-- The fields of a table with their copies. -/
def copyFields (lens : Lengths) : List (LuaKey × Options) → List (LuaKey × Options)
  | [] => []
  | (k, t) :: rest => (k, copyOver (lens.below k) t) :: copyFields lens rest

end

mutual

/-- The value of `overrides` over the one of `defaults`; none where `merge` raises an error. -/
def overlay (lens : Lengths) : Options → Options → Option Options
  | _, .leaf a => some (.leaf a)
  | .leaf _, .node _ => none
  | .node defaults, .node fields =>
      if 0 < lens.overrides [] ∨ 0 < lens.compared [] then
        some (.node (ipairs (copyFields lens fields)))
      else (overlayFields lens defaults fields).map .node

/-- The loop over the fields of `overrides`. -/
def overlayFields (lens : Lengths) (result : List (LuaKey × Options)) :
    List (LuaKey × Options) → Option (List (LuaKey × Options))
  | [] => some result
  | (k, t) :: rest =>
      match result.lookup k with
      | none => overlayFields lens (Assoc.put k (copyOver (lens.below k) t) result) rest
      | some d =>
          match overlay (lens.below k) d t with
          | none => none
          | some x => overlayFields lens (Assoc.put k x result) rest

end

/-- A value of `overrides` over what `defaults` have there, if anything. -/
def overlayAt (lens : Lengths) : Option Options → Options → Option Options
  | none, t => some (copyOver lens t)
  | some d, t => overlay lens d t

/-! ## What is kept -/

/-- The table of `defaults` at this place counts as a list when it is compared. -/
def ListAt (lens : Lengths) : Option Options → Prop
  | some (.node _) => 0 < lens.compared []
  | _ => False

instance (lens : Lengths) (d : Option Options) : Decidable (ListAt lens d) := by
  rcases d with _ | t
  · exact inferInstanceAs (Decidable False)
  · cases t with
    | leaf a => exact inferInstanceAs (Decidable False)
    | node fields => exact inferInstanceAs (Decidable (0 < lens.compared []))

/-- Over a table, the items of a table of `overrides` are taken. -/
def TakesItems (lens : Lengths) (d : Option Options) : Prop :=
  0 < lens.overrides [] ∨ ListAt lens d

instance (lens : Lengths) (d : Option Options) : Decidable (TakesItems lens d) :=
  inferInstanceAs (Decidable (_ ∨ _))

/-- The fields of the table of `defaults` at this place. -/
def fieldsAt : Option Options → List (LuaKey × Options)
  | some (.node fields) => fields
  | _ => []

/-- What is under a key of the table of `defaults` at this place. -/
def under (d : Option Options) (k : LuaKey) : Option Options := (fieldsAt d).lookup k

/-- Along the path, wherever a table of `overrides` or the one compared with it counts as a list,
the next key is one that `ipairs` visits. -/
def VisitedAlong (lens : Lengths) : Option Options → Options → List LuaKey → Prop
  | d, .node fields, k :: path =>
      if TakesItems lens d then
        k ∈ (ipairs fields).map Prod.fst ∧
          ∀ t, fields.lookup k = some t → VisitedAlong (lens.below k) none t path
      else ∀ t, fields.lookup k = some t → VisitedAlong (lens.below k) (under d k) t path
  | _, _, _ => True

/-- At the end of the path, which goes through tables that do not count as lists, `overrides` have a
table and `defaults` a scalar. -/
def TableOverScalar (lens : Lengths) : Option Options → Options → List LuaKey → Prop
  | some (.leaf _), .node _, [] => True
  | d, .node fields, k :: path => ¬ TakesItems lens d ∧
      ∃ t, fields.lookup k = some t ∧ TableOverScalar (lens.below k) (under d k) t path
  | _, _, _ => False

/-- Along the path, as long as both have a table, the one compared does not count as a list. -/
def LeftAlong (lens : Lengths) : Options → Options → List LuaKey → Prop
  | .node defaults, .node fields, k :: path => lens.compared [] = 0 ∧
      ∀ d t, defaults.lookup k = some d → fields.lookup k = some t →
        LeftAlong (lens.below k) d t path
  | _, _, _ => True

/-- The tree is a scalar or a table that counts as a list. -/
def ScalarOrList (length : ℕ) : Options → Prop
  | .leaf _ => True
  | .node _ => 0 < length

/-- At some place on the path `overrides` have a scalar or a list, or a table where `defaults` have
a scalar or a list. -/
def Overridden (lens : Lengths) (defaults overrides : Options) (path : List LuaKey) : Prop :=
  ∃ place, place <+: path ∧ ∃ t, overrides.subtree place = some t ∧
    (ScalarOrList (lens.overrides place) t ∨
      ∃ d, defaults.subtree place = some d ∧ ScalarOrList (lens.defaults place) d)

/-- The options can be merged: nowhere does a table come over a scalar, `ipairs` visits all that
leads to a leaf of `overrides` where items are taken, and items are not taken over a leaf of
`defaults` that is not overridden. -/
structure Mergeable (lens : Lengths) (defaults overrides : Options) : Prop where
  scalars : ∀ path, ¬ TableOverScalar lens (some defaults) overrides path
  visited : ∀ path a, overrides.LeafAt path a → VisitedAlong lens (some defaults) overrides path
  left : ∀ path a, defaults.LeafAt path a → ¬ Overridden lens defaults overrides path →
    LeftAlong lens defaults overrides path

/-- The leaves of `overrides` are in the result, and those of `defaults` that are not overridden. -/
def KeepsLeaves (lens : Lengths) (defaults overrides result : Options) : Prop :=
  (∀ path a, overrides.LeafAt path a → result.LeafAt path a) ∧
    ∀ path a, defaults.LeafAt path a → ¬ Overridden lens defaults overrides path →
      result.LeafAt path a

variable {lens : Lengths}

/-! ## Lists -/

/-- Under a key that `ipairs` visits stands what the table has there. -/
theorem lookup_ipairsFrom {β : Type} (fields : List (LuaKey × β)) (rounds i : ℕ) (k : LuaKey) :
    (ipairsFrom fields rounds i).lookup k =
      if k ∈ (ipairsFrom fields rounds i).map Prod.fst then fields.lookup k else none := by
  induction rounds generalizing i with
  | zero => rfl
  | succ rounds ih =>
    rw [ipairsFrom]
    cases hi : fields.lookup (.integer i) with
    | none => rfl
    | some v =>
      simp only [List.map_cons, List.mem_cons]
      by_cases hk : k = .integer i
      · subst hk
        rw [List.lookup_cons_self, if_pos (Or.inl rfl), hi]
      · rw [List.lookup_cons, show (k == .integer (i : ℤ)) = false by simpa using hk, ih]
        simp only [hk, false_or]

/-- What `ipairs` visits it finds as it is. -/
theorem lookup_ipairs {β : Type} (fields : List (LuaKey × β)) (k : LuaKey) :
    (ipairs fields).lookup k =
      if k ∈ (ipairs fields).map Prod.fst then fields.lookup k else none :=
  lookup_ipairsFrom ..

/-- It visits fields of the table, under indices from the first on. -/
theorem mem_of_mem_ipairsFrom {β : Type} {fields : List (LuaKey × β)} {rounds i : ℕ}
    {f : LuaKey × β} (hf : f ∈ ipairsFrom fields rounds i) :
    f ∈ fields ∧ ∃ n : ℕ, i ≤ n ∧ f.1 = .integer n := by
  induction rounds generalizing i with
  | zero => cases hf
  | succ rounds ih =>
    rw [ipairsFrom] at hf
    cases hi : fields.lookup (.integer i) with
    | none =>
      rw [hi] at hf
      cases hf
    | some v =>
      rw [hi] at hf
      rcases List.mem_cons.mp hf with rfl | hf
      · exact ⟨Assoc.mem_of_lookup hi, i, le_rfl, rfl⟩
      · obtain ⟨hmem, n, hn, hkey⟩ := ih hf
        exact ⟨hmem, n, Nat.le_of_succ_le hn, hkey⟩

/-- It visits fields of the table only. -/
theorem mem_of_mem_ipairs {β : Type} {fields : List (LuaKey × β)} {f : LuaKey × β}
    (hf : f ∈ ipairs fields) : f ∈ fields :=
  (mem_of_mem_ipairsFrom hf).1

/-- No index is visited twice. -/
theorem distinct_ipairsFrom {β : Type} (fields : List (LuaKey × β)) (rounds i : ℕ) :
    Assoc.Distinct (ipairsFrom fields rounds i) := by
  induction rounds generalizing i with
  | zero => exact List.nodup_nil
  | succ rounds ih =>
    rw [ipairsFrom]
    cases fields.lookup (.integer i) with
    | none => exact List.nodup_nil
    | some v =>
      refine List.nodup_cons.mpr ⟨?_, ih (i + 1)⟩
      intro hmem
      obtain ⟨f, hf, hkey⟩ := List.mem_map.mp hmem
      obtain ⟨-, n, hn, hn'⟩ := mem_of_mem_ipairsFrom hf
      rw [hkey, LuaKey.integer.injEq, Int.natCast_inj] at hn'
      omega

/-- It visits no index twice. -/
theorem distinct_ipairs {β : Type} (fields : List (LuaKey × β)) : Assoc.Distinct (ipairs fields) :=
  distinct_ipairsFrom ..

/-- In related tables `ipairs` visits related values. -/
theorem related_ipairsFrom {β γ : Type} {R : β → γ → Prop} {fields : List (LuaKey × β)}
    {other : List (LuaKey × γ)} (h : Assoc.Related R fields other) (rounds i : ℕ) :
    Assoc.Related R (ipairsFrom fields rounds i) (ipairsFrom other rounds i) := by
  induction rounds generalizing i with
  | zero => exact .nil
  | succ rounds ih =>
    have hi := h.lookup (.integer i)
    rw [ipairsFrom, ipairsFrom]
    cases hfields : fields.lookup (.integer i) <;> cases hother : other.lookup (.integer i) <;>
      rw [hfields, hother] at hi
    · exact .nil
    · cases hi
    · cases hi
    · next v w =>
      cases hi with
      | some hvw => exact .cons ⟨rfl, hvw⟩ (ih (i + 1))

/-- It visits the same indices in related tables. -/
theorem related_ipairs {β γ : Type} {R : β → γ → Prop} {fields : List (LuaKey × β)}
    {other : List (LuaKey × γ)} (h : Assoc.Related R fields other) :
    Assoc.Related R (ipairs fields) (ipairs other) := by
  have hlength : fields.length = other.length := List.Forall₂.length_eq h
  rw [ipairs, ipairs, hlength]
  exact related_ipairsFrom h ..

/-- The items of a table whose values are changed one by one. -/
theorem ipairsFrom_map {β γ : Type} (f : LuaKey → β → γ) (fields : List (LuaKey × β))
    (rounds i : ℕ) : ipairsFrom (fields.map fun e => (e.1, f e.1 e.2)) rounds i =
      (ipairsFrom fields rounds i).map fun e => (e.1, f e.1 e.2) := by
  induction rounds generalizing i with
  | zero => rfl
  | succ rounds ih =>
    rw [ipairsFrom, ipairsFrom, Assoc.lookup_mapKeyed]
    cases fields.lookup (.integer i) with
    | none => rfl
    | some v =>
      rw [Option.map_some, ih]
      rfl

/-! ## Copies -/

/-- Each field is copied for itself. -/
theorem copyFields_eq (fields : List (LuaKey × Options)) :
    copyFields lens fields = fields.map (fun f => (f.1, copyOver (lens.below f.1) f.2)) := by
  induction fields with
  | nil => rfl
  | cons f rest ih => rw [copyFields, ih, List.map_cons]

/-- A copied table has the copies of the fields. -/
theorem lookup_copyFields (fields : List (LuaKey × Options)) (k : LuaKey) :
    (copyFields lens fields).lookup k = (fields.lookup k).map (copyOver (lens.below k)) := by
  rw [copyFields_eq]
  exact Assoc.lookup_mapKeyed (fun k t => copyOver (lens.below k) t) fields k

/-- The items of the copies are the copies of the items. -/
theorem ipairs_copyFields (fields : List (LuaKey × Options)) : ipairs (copyFields lens fields) =
    (ipairs fields).map fun f => (f.1, copyOver (lens.below f.1) f.2) := by
  rw [ipairs, copyFields_eq, List.length_map]
  exact ipairsFrom_map (fun k t => copyOver (lens.below k) t) fields fields.length 1

/-- `ipairs` visits the same indices in a copied table. -/
theorem keys_ipairs_copyFields (fields : List (LuaKey × Options)) :
    (ipairs (copyFields lens fields)).map Prod.fst = (ipairs fields).map Prod.fst := by
  rw [ipairs_copyFields, List.map_map]
  rfl

/-- Under a key of the items of the copies stands the copy of what is there, if anything. -/
theorem lookup_items {fields : List (LuaKey × Options)} {k : LuaKey} {x : Options}
    (hx : (ipairs (copyFields lens fields)).lookup k = some x) :
    ∃ t, fields.lookup k = some t ∧ x = copyOver (lens.below k) t := by
  rw [lookup_ipairs, lookup_copyFields] at hx
  split_ifs at hx
  obtain ⟨t, ht, rfl⟩ := Option.map_eq_some_iff.mp hx
  exact ⟨t, ht, rfl⟩

/-- A copy has no other leaves. -/
theorem leafAt_of_copyOver {t : Options} {path : List LuaKey} {a : Value}
    (hleaf : (copyOver lens t).LeafAt path a) : t.LeafAt path a := by
  induction path generalizing lens t with
  | nil =>
    cases t with
    | leaf b => exact hleaf
    | node fields =>
      rw [copyOver] at hleaf
      split_ifs at hleaf
      · cases hleaf
      · cases hleaf
  | cons k path ih =>
    cases t with
    | leaf b => exact absurd hleaf KeyTree.not_leafAt_leaf
    | node fields =>
      have hcopy : ∃ u, fields.lookup k = some u ∧
          (copyOver (lens.below k) u).LeafAt path a := by
        rw [copyOver] at hleaf
        split_ifs at hleaf
        · obtain ⟨x, hx, hxleaf⟩ := KeyTree.leafAt_cons.mp hleaf
          obtain ⟨u, hu, rfl⟩ := lookup_items hx
          exact ⟨u, hu, hxleaf⟩
        · obtain ⟨x, hx, hxleaf⟩ := KeyTree.leafAt_cons.mp hleaf
          rw [lookup_copyFields] at hx
          obtain ⟨u, hu, rfl⟩ := Option.map_eq_some_iff.mp hx
          exact ⟨u, hu, hxleaf⟩
      obtain ⟨u, hu, huleaf⟩ := hcopy
      exact KeyTree.leafAt_cons.mpr ⟨u, hu, ih huleaf⟩

/-! ## The fields of the result -/

/-- A loop that stores what is made of each field. -/
def storeEach (make : LuaKey → Options → Option Options) (result : List (LuaKey × Options)) :
    List (LuaKey × Options) → Option (List (LuaKey × Options))
  | [] => some result
  | (k, t) :: rest => (make k t).bind fun x => storeEach make (Assoc.put k x result) rest

/-- The loop goes through if every field does. -/
theorem storeEach_cases {make : LuaKey → Options → Option Options}
    {fields : List (LuaKey × Options)} (hdistinct : Assoc.Distinct fields)
    (result : List (LuaKey × Options)) :
    (storeEach make result fields = none ∧ ∃ f ∈ fields, make f.1 f.2 = none) ∨
      ∃ all, storeEach make result fields = some all ∧
        (∀ k, fields.lookup k = none → all.lookup k = result.lookup k) ∧
        ∀ k t, fields.lookup k = some t → ∃ x, make k t = some x ∧ all.lookup k = some x := by
  induction fields generalizing result with
  | nil => exact Or.inr ⟨result, rfl, fun k _ => rfl, fun k t h => by cases h⟩
  | cons f rest ih =>
    obtain ⟨k, t⟩ := f
    obtain ⟨hfresh, hrest⟩ := List.nodup_cons.mp hdistinct
    rw [storeEach]
    cases hx : make k t with
    | none => exact Or.inl ⟨rfl, (k, t), List.mem_cons_self, hx⟩
    | some x =>
      rw [Option.bind_some]
      rcases ih hrest (Assoc.put k x result) with
        ⟨hnone, f, hf, hraises⟩ | ⟨all, hall, hothers, hfields⟩
      · exact Or.inl ⟨hnone, f, List.mem_cons_of_mem _ hf, hraises⟩
      · refine Or.inr ⟨all, hall, ?_, ?_⟩
        · intro j hj
          obtain ⟨hjk, hj⟩ := Assoc.lookup_cons_eq_none.mp hj
          rw [hothers j hj, Assoc.lookup_put_ne hjk]
        · intro j u hj
          by_cases hjk : j = k
          · subst hjk
            rw [List.lookup_cons_self, Option.some.injEq] at hj
            subst hj
            have hmissing : rest.lookup j = none := Assoc.lookup_eq_none_of_not_mem hfresh
            exact ⟨x, hx, by rw [hothers j hmissing, Assoc.lookup_put_self]⟩
          · rw [List.lookup_cons, show (j == k) = false by simpa using hjk] at hj
            exact hfields j u hj

/-- The loop with something made of every field, over fields that are not there yet. -/
theorem storeEach_some {make : LuaKey → Options → Option Options}
    {f : LuaKey → Options → Options} (hmake : ∀ k t, make k t = some (f k t))
    {result fields : List (LuaKey × Options)} (hdistinct : Assoc.Distinct (result ++ fields)) :
    storeEach make result fields = some (result ++ fields.map fun e => (e.1, f e.1 e.2)) := by
  induction fields generalizing result with
  | nil => rw [storeEach, List.map_nil, List.append_nil]
  | cons e rest ih =>
    obtain ⟨k, t⟩ := e
    rw [Assoc.Distinct, List.map_append, List.map_cons, List.nodup_middle] at hdistinct
    obtain ⟨hfresh, hrest⟩ := List.nodup_cons.mp hdistinct
    rw [List.mem_append, not_or] at hfresh
    rw [storeEach, hmake, Option.bind_some, Assoc.put_of_not_mem hfresh.1, ih, List.map_cons,
      List.append_assoc, List.singleton_append]
    rw [Assoc.Distinct, List.append_assoc, List.map_append, List.singleton_append, List.map_cons,
      List.nodup_middle]
    exact List.nodup_cons.mpr ⟨by simpa using hfresh, hrest⟩

/-- A field of `overrides` is put over what `defaults` have under its key. -/
theorem overlayFields_eq_storeEach {defaults result fields : List (LuaKey × Options)}
    (hdistinct : Assoc.Distinct fields)
    (hsame : ∀ f ∈ fields, result.lookup f.1 = defaults.lookup f.1) :
    overlayFields lens result fields =
      storeEach (fun k t => overlayAt (lens.below k) (defaults.lookup k) t) result fields := by
  induction fields generalizing result with
  | nil => rw [overlayFields, storeEach]
  | cons f rest ih =>
    obtain ⟨k, t⟩ := f
    obtain ⟨hfresh, hrest⟩ := List.nodup_cons.mp hdistinct
    obtain ⟨hhead, htail⟩ := List.forall_mem_cons.mp hsame
    have hnext (x : Options) : overlayFields lens (Assoc.put k x result) rest =
        storeEach (fun k t => overlayAt (lens.below k) (defaults.lookup k) t)
          (Assoc.put k x result) rest := by
      apply ih hrest
      intro f hf
      have hne : f.1 ≠ k := fun hk => hfresh (List.mem_map.mpr ⟨f, hf, hk⟩)
      rw [Assoc.lookup_put_ne hne, htail f hf]
    rw [overlayFields, storeEach, hhead]
    cases defaults.lookup k with
    | none => exact hnext _
    | some d =>
      rw [overlayAt]
      simp only
      cases overlay (lens.below k) d t with
      | none => rfl
      | some x => exact hnext x

/-- What is under a key is lower than the table. -/
theorem height_le_of_under {n : ℕ} {d : Option Options} (hd : ∀ t ∈ d, t.height ≤ n + 1)
    (k : LuaKey) : ∀ t ∈ under d k, t.height ≤ n := by
  intro t ht
  rcases d with _ | d
  · cases ht
  · cases d with
    | leaf a => cases ht
    | node fields => exact KeyTree.height_le_of_node (hd _ rfl) _ (Assoc.mem_of_lookup ht)

/-- A table of `overrides` over `nil` or a table: the copied items where lists are taken, else a
table with what comes of each field. -/
theorem overlayAt_node {d : Option Options} {fields : List (LuaKey × Options)}
    (hdistinct : Assoc.Distinct fields) (hd : ∀ a, d ≠ some (.leaf a)) :
    overlayAt lens d (.node fields) =
      if TakesItems lens d then some (.node (ipairs (copyFields lens fields)))
      else (storeEach (fun k t => overlayAt (lens.below k) (under d k) t) (fieldsAt d) fields).map
        .node := by
  cases d with
  | none =>
    have hlist : TakesItems lens none ↔ 0 < lens.overrides [] := or_iff_left id
    have hcopy : storeEach (fun k t => overlayAt (lens.below k) (under none k) t) (fieldsAt none)
        fields = some (copyFields lens fields) := by
      rw [copyFields_eq]
      exact @storeEach_some _ (fun k t => copyOver (lens.below k) t) (fun _ _ => rfl) [] fields
        hdistinct
    rw [hcopy, overlayAt, copyOver, if_congr hlist rfl rfl, Option.map_some, apply_ite some]
  | some d =>
    cases d with
    | leaf a => exact absurd rfl (hd a)
    | node defaults =>
      rw [overlayAt, overlay, overlayFields_eq_storeEach hdistinct fun _ _ => rfl]
      rfl

/-- A scalar of `overrides` is taken as it is. -/
theorem overlayAt_leaf (d : Option Options) (a : Value) :
    overlayAt lens d (.leaf a) = some (.leaf a) := by
  cases d with
  | none => rfl
  | some d => rw [overlayAt, overlay]

/-- A table over a scalar is an error. -/
theorem overlayAt_scalar (a : Value) (fields : List (LuaKey × Options)) :
    overlayAt lens (some (.leaf a)) (.node fields) = none := rfl

/-- A table of `overrides` in the result. -/
theorem overlayAt_node_some {d : Option Options} {fields : List (LuaKey × Options)} {r : Options}
    (hdistinct : Assoc.Distinct fields) (hr : overlayAt lens d (.node fields) = some r) :
    TakesItems lens d ∧ r = .node (ipairs (copyFields lens fields)) ∨
      ¬ TakesItems lens d ∧ ∃ all, r = .node all ∧
        (∀ k, fields.lookup k = none → all.lookup k = under d k) ∧
        ∀ k t, fields.lookup k = some t →
          ∃ x, overlayAt (lens.below k) (under d k) t = some x ∧ all.lookup k = some x := by
  have hd (a : Value) : d ≠ some (.leaf a) := by
    rintro rfl
    rw [overlayAt_scalar] at hr
    cases hr
  rw [overlayAt_node hdistinct hd] at hr
  by_cases hlist : TakesItems lens d
  · rw [if_pos hlist, Option.some.injEq] at hr
    exact Or.inl ⟨hlist, hr.symm⟩
  · rw [if_neg hlist, Option.map_eq_some_iff] at hr
    obtain ⟨all, hall, rfl⟩ := hr
    refine Or.inr ⟨hlist, all, rfl, ?_⟩
    rcases @storeEach_cases (fun k t => overlayAt (lens.below k) (under d k) t) fields hdistinct
      (fieldsAt d) with ⟨hnone, -⟩ | ⟨all', hall', hothers, hfields⟩
    · rw [hnone] at hall
      cases hall
    · obtain rfl := Option.some.inj (hall.symm.trans hall')
      exact ⟨hothers, hfields⟩

/-! ## Leaves of the result -/

/-- A leaf of `overrides` is in the result exactly if `ipairs` visits what leads to it wherever
items are taken. -/
theorem leafAt_overlayAt_iff {d : Option Options} {t r : Options} {path : List LuaKey} {a : Value}
    (hdistinct : t.Distinct) (hr : overlayAt lens d t = some r) (hleaf : t.LeafAt path a) :
    r.LeafAt path a ↔ VisitedAlong lens d t path := by
  induction path generalizing lens d t r with
  | nil =>
    obtain rfl : t = .leaf a := Option.some.inj hleaf
    obtain rfl : .leaf a = r := by cases d <;> exact Option.some.inj hr
    exact iff_of_true rfl trivial
  | cons k path ih =>
    cases t with
    | leaf b => exact absurd hleaf KeyTree.not_leafAt_leaf
    | node fields =>
      obtain ⟨hkeys, hbelow⟩ := KeyTree.distinct_node.mp hdistinct
      obtain ⟨u, hu, hleaf⟩ := KeyTree.leafAt_cons.mp hleaf
      have hudistinct : u.Distinct := hbelow _ (Assoc.mem_of_lookup hu)
      rw [VisitedAlong]
      rcases overlayAt_node_some hkeys hr with ⟨hlist, rfl⟩ | ⟨hlist, all, rfl, -, hfields⟩
      · rw [if_pos hlist, KeyTree.leafAt_cons, lookup_ipairs, keys_ipairs_copyFields,
          lookup_copyFields, hu, Option.map_some]
        by_cases hk : k ∈ (ipairs fields).map Prod.fst
        · rw [if_pos hk]
          have hsame := @ih (lens.below k) none u _ hudistinct rfl hleaf
          constructor
          · rintro ⟨x, hx, hxleaf⟩
            obtain rfl := Option.some.inj hx
            refine ⟨hk, fun v hv => ?_⟩
            obtain rfl := Option.some.inj hv
            exact hsame.mp hxleaf
          · rintro ⟨-, hvisited⟩
            exact ⟨_, rfl, hsame.mpr (hvisited u rfl)⟩
        · rw [if_neg hk]
          refine iff_of_false ?_ (fun h => hk h.1)
          rintro ⟨x, hx, -⟩
          cases hx
      · obtain ⟨x, hx, hallx⟩ := hfields k u hu
        rw [if_neg hlist, KeyTree.leafAt_cons, hallx, hu]
        have hsame := ih hudistinct hx hleaf
        constructor
        · rintro ⟨y, hy, hyleaf⟩ v hv
          obtain rfl := Option.some.inj hy
          obtain rfl := Option.some.inj hv
          exact hsame.mp hyleaf
        · intro hvisited
          exact ⟨x, rfl, hsame.mpr (hvisited u rfl)⟩

/-- What is overridden below a key is overridden. -/
theorem Overridden.of_below {defaults fields : List (LuaKey × Options)} {k : LuaKey}
    {d t : Options} {path : List LuaKey} (hd : defaults.lookup k = some d)
    (ht : fields.lookup k = some t) (h : Overridden (lens.below k) d t path) :
    Overridden lens (.node defaults) (.node fields) (k :: path) := by
  obtain ⟨place, hplace, u, hu, hover⟩ := h
  refine ⟨k :: place, List.cons_prefix_cons.mpr ⟨rfl, hplace⟩, u, ?_, ?_⟩
  · rw [KeyTree.subtree, ht, Option.bind_some, hu]
  · rcases hover with hscalar | ⟨e, he, hscalar⟩
    · exact Or.inl hscalar
    · refine Or.inr ⟨e, ?_, hscalar⟩
      rw [KeyTree.subtree, hd, Option.bind_some, he]

/-- A leaf of `overrides` overrides. -/
theorem overridden_of_leafAt {d t : Options} {path : List LuaKey} {a : Value}
    (hleaf : t.LeafAt path a) : Overridden lens d t path :=
  ⟨path, List.prefix_refl path, .leaf a, hleaf, Or.inl trivial⟩

/-- A leaf of `defaults` that is not overridden is in the result exactly if on the way to it no copy
counts as a list. -/
theorem leafAt_overlay_iff {d t r : Options} {path : List LuaKey} {a : Value}
    (hdistinct : t.Distinct) (hr : overlay lens d t = some r) (hleaf : d.LeafAt path a)
    (hover : ¬ Overridden lens d t path) : r.LeafAt path a ↔ LeftAlong lens d t path := by
  induction path generalizing lens d t r with
  | nil =>
    obtain rfl : d = .leaf a := Option.some.inj hleaf
    exact absurd ⟨[], List.nil_prefix, t, rfl, Or.inr ⟨_, rfl, trivial⟩⟩ hover
  | cons k path ih =>
    have hroot : ¬ ScalarOrList (lens.overrides []) t :=
      fun hscalar => hover ⟨[], List.nil_prefix, t, rfl, Or.inl hscalar⟩
    cases d with
    | leaf b => exact absurd hleaf KeyTree.not_leafAt_leaf
    | node defaults =>
      cases t with
      | leaf b => exact absurd trivial hroot
      | node fields =>
        obtain ⟨hkeys, hbelow⟩ := KeyTree.distinct_node.mp hdistinct
        obtain ⟨e, he, hleaf⟩ := KeyTree.leafAt_cons.mp hleaf
        rw [LeftAlong]
        rcases @overlayAt_node_some lens (some (.node defaults)) fields r hkeys hr with
          ⟨hlist, rfl⟩ | ⟨hlist, all, rfl, hothers, hfields⟩
        · -- the copies of the items have no leaf that `overrides` have not
          have hcopy : 0 < lens.compared [] := hlist.resolve_left hroot
          refine iff_of_false ?_ (fun h => Nat.ne_of_gt hcopy h.1)
          intro hresult
          obtain ⟨x, hx, hxleaf⟩ := KeyTree.leafAt_cons.mp hresult
          obtain ⟨u, hu, rfl⟩ := lookup_items hx
          exact hover (overridden_of_leafAt
            (KeyTree.leafAt_cons.mpr ⟨u, hu, leafAt_of_copyOver hxleaf⟩))
        · have hcopy : lens.compared [] = 0 :=
            Nat.eq_zero_of_not_pos fun hpos => hlist (Or.inr hpos)
          rw [KeyTree.leafAt_cons, and_iff_right hcopy]
          cases hk : fields.lookup k with
          | none =>
            refine iff_of_true ⟨e, (hothers k hk).trans he, hleaf⟩ ?_
            intro d u _ hu
            cases hu
          | some u =>
            obtain ⟨x, hx, hallx⟩ := hfields k u hk
            rw [under, fieldsAt, he] at hx
            have hsame := ih (hbelow _ (Assoc.mem_of_lookup hk)) hx hleaf
              fun h => hover (h.of_below he hk)
            rw [hallx, he]
            constructor
            · rintro ⟨y, hy, hyleaf⟩ d' u' hd' hu'
              obtain rfl := Option.some.inj hy
              obtain rfl := Option.some.inj hd'
              obtain rfl := Option.some.inj hu'
              exact hsame.mp hyleaf
            · intro hleft
              exact ⟨x, rfl, hsame.mpr (hleft e u rfl rfl)⟩

/-! ## Errors -/

/-- Below a key a table comes over a scalar if it does so in the field, and the items are not taken
as they are. -/
theorem tableOverScalar_cons {d : Option Options} {fields : List (LuaKey × Options)} {k : LuaKey}
    {path : List LuaKey} :
    TableOverScalar lens d (.node fields) (k :: path) ↔
      ¬ TakesItems lens d ∧
        ∃ t, fields.lookup k = some t ∧ TableOverScalar (lens.below k) (under d k) t path := by
  rcases d with _ | d
  · rfl
  · cases d <;> rfl

/-- A scalar of `overrides` is no table. -/
theorem not_tableOverScalar_leaf {d : Option Options} {a : Value} {path : List LuaKey} :
    ¬ TableOverScalar lens d (.leaf a) path := by
  rcases d with _ | d
  · cases path <;> exact id
  · cases d <;> cases path <;> exact id

/-- A table over a scalar at once is an error. -/
theorem not_tableOverScalar_nil {d : Option Options} {fields : List (LuaKey × Options)}
    {r : Options} (hr : overlayAt lens d (.node fields) = some r) :
    ¬ TableOverScalar lens d (.node fields) [] := by
  rcases d with _ | d
  · exact id
  · cases d with
    | leaf a => cases hr
    | node defaults => exact id

/-- Merging raises an error exactly if it comes to a table over a scalar. -/
theorem overlayAt_eq_none_iff {d : Option Options} {t : Options} (hdistinct : t.Distinct) :
    overlayAt lens d t = none ↔ ∃ path, TableOverScalar lens d t path := by
  induction t using KeyTree.fieldInduction generalizing lens d with
  | leaf a =>
    apply iff_of_false
    · simp [overlayAt_leaf]
    · rintro ⟨path, hpath⟩
      exact not_tableOverScalar_leaf hpath
  | node fields ih =>
    obtain ⟨hkeys, hbelow⟩ := KeyTree.distinct_node.mp hdistinct
    cases hr : overlayAt lens d (.node fields) with
    | some r =>
      refine iff_of_false (by simp) ?_
      rintro ⟨path, hpath⟩
      cases path with
      | nil => exact not_tableOverScalar_nil hr hpath
      | cons k path =>
        obtain ⟨hmap, u, hu, hpath⟩ := tableOverScalar_cons.mp hpath
        rcases overlayAt_node_some hkeys hr with ⟨hlist, -⟩ | ⟨-, all, -, -, hfields⟩
        · exact hmap hlist
        · obtain ⟨x, hx, -⟩ := hfields k u hu
          have hmem := Assoc.mem_of_lookup hu
          have hnone := (ih _ hmem (hbelow _ hmem)).mpr ⟨path, hpath⟩
          rw [hx] at hnone
          cases hnone
    | none =>
      refine iff_of_true rfl ?_
      by_cases hd : ∃ a, d = some (.leaf a)
      · obtain ⟨a, rfl⟩ := hd
        exact ⟨[], trivial⟩
      · rw [overlayAt_node hkeys (not_exists.mp hd)] at hr
        by_cases hlist : TakesItems lens d
        · rw [if_pos hlist] at hr
          cases hr
        · rw [if_neg hlist, Option.map_eq_none_iff] at hr
          rcases @storeEach_cases (fun k t => overlayAt (lens.below k) (under d k) t) fields hkeys
            (fieldsAt d) with ⟨-, f, hf, hraises⟩ | ⟨all, hall, -⟩
          · obtain ⟨path, hpath⟩ := (ih f hf (hbelow f hf)).mp hraises
            have hlookup := Assoc.lookup_of_mem hkeys hf
            exact ⟨f.1 :: path, tableOverScalar_cons.mpr ⟨hlist, f.2, hlookup, hpath⟩⟩
          · rw [hr] at hall
            cases hall

/-- Merging gives a result with all leaves that should be there exactly if the options can be
merged. -/
theorem keepsLeaves_iff_mergeable {d t : Options} (ht : t.Distinct) :
    (∃ r, overlay lens d t = some r ∧ KeepsLeaves lens d t r) ↔ Mergeable lens d t := by
  constructor
  · rintro ⟨r, hr, hover, hdefaults⟩
    refine ⟨?_, ?_, ?_⟩
    · intro path hpath
      have hnone := (@overlayAt_eq_none_iff lens (some d) t ht).mpr ⟨path, hpath⟩
      rw [overlayAt, hr] at hnone
      cases hnone
    · intro path a hleaf
      exact (@leafAt_overlayAt_iff lens (some d) t r path a ht hr hleaf).mp (hover path a hleaf)
    · intro path a hleaf hkept
      exact (leafAt_overlay_iff ht hr hleaf hkept).mp (hdefaults path a hleaf hkept)
  · rintro ⟨hscalar, hvisited, hleft⟩
    cases hr : overlay lens d t with
    | none =>
      obtain ⟨path, hpath⟩ := (@overlayAt_eq_none_iff lens (some d) t ht).mp hr
      exact absurd hpath (hscalar path)
    | some r =>
      refine ⟨r, rfl, ?_, ?_⟩
      · intro path a hleaf
        have hsame := @leafAt_overlayAt_iff lens (some d) t r path a ht hr hleaf
        exact hsame.mpr (hvisited path a hleaf)
      · intro path a hleaf hover
        exact (leafAt_overlay_iff ht hr hleaf hover).mpr (hleft path a hleaf hover)

/-- The table `{[2] = 2}` need not count as a list where its copy does. Then `{x = 1}` over it gives
a table without `x`. -/
example : ¬ Mergeable ⟨fun _ => 0, fun _ => 0, fun place => if place = [] then 0 else 2⟩
    (.node [(.string [97], .node [(.integer 2, .leaf (.integer 2))])])
    (.node [(.string [97], .node [(.string [120], .leaf (.integer 1))])]) := by
  intro h
  have hvisited := h.visited [.string [97], .string [120]] (.integer 1) rfl
  rw [VisitedAlong, if_neg (by decide)] at hvisited
  have hbelow := hvisited _ rfl
  rw [VisitedAlong, if_pos (by decide)] at hbelow
  exact absurd hbelow.1 (by decide)

end Radapter.Graph
