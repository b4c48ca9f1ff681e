import Radapter.Graph.Value
import Radapter.Lazy.Current

/-!
# `get` of a table

The loop of `Get` reads each part of the path from whatever the part before it gave, with
`lua_rawget` and without looking at its type. `GetPath` and `Set` look at it. What `lua_rawget` does
with a value that is no table is undefined.
-/

namespace Radapter.Graph

open Library Lua Lazy

/-- What `Get` ends with. -/
inductive Got where
  | value (v : Value)
  | undefined

variable (h : Heap)

/-- The loop of `Get` on the path from a position on, which may be the first one; none when the
rounds are not enough. -/
def getRounds (sep : Bytes) : ℕ → Bool → Bytes → Value → Option Got
  | 0, _, _, _ => none
  | rounds + 1, first, k, cur =>
      match cut sep k with
      | none =>
          match cur with
          | .table t => some (.value (rawget (h.fields t) (PushPathPart k)))
          | _ => some .undefined
      | some (part, rest) =>
          -- `if (ptr)`: a separator at the start of the path
          if first = true ∧ part = [] then getRounds sep rounds false rest cur
          else
            match cur with
            | .table t =>
                if (rawget (h.fields t) (PushPathPart part)).isNil then some (.value .nil)
                else getRounds sep rounds false rest (rawget (h.fields t) (PushPathPart part))
            | _ => some .undefined

/-- `Get` of a table. -/
def Get (sep k : Bytes) (rounds t : ℕ) : Option Got :=
  if k = [] ∨ k = sep then some (.value (.table t)) else getRounds h sep rounds true k (.table t)

/-- `get` ends with the value at the path, where views are followed like tables. -/
def GetsValue (rt : Runtime) (calls : ℕ) (sep path : Bytes) (t : ℕ) : Prop :=
  ∃ v, follow rt h calls (.table t) (pathKeys sep path) = some v ∧
    ∃ n, ∀ rounds ≥ n, Get h sep path rounds t = some (.value v)

/-- Every level above the end of the keys is a table, unless a field on the way is missing. -/
def TablesOnly : Value → List LuaKey → Prop
  | _, [] => True
  | .table t, k :: rest =>
      rawget (h.fields t) k = .nil ∨ TablesOnly (rawget (h.fields t) k) rest
  | _, _ :: _ => False

/-- The rounds of `Get` along the keys of a path. -/
def getKeys : Value → List LuaKey → Got
  | v, [] => .value v
  | .table t, k :: rest =>
      if (rawget (h.fields t) k).isNil then .value .nil else getKeys (rawget (h.fields t) k) rest
  | _, _ :: _ => .undefined

variable {h}

/-! ## The rounds of the loop -/

/-- A path that is cut gives its first part and those of the rest. -/
theorem partsOf_of_cut {sep path part rest : Bytes} (hsep : sep ≠ [])
    (hcut : cut sep path = some (part, rest)) : partsOf sep path = part :: partsOf sep rest := by
  have hlt := length_of_cut hsep hcut
  obtain ⟨n, hn⟩ : ∃ n, path.length = n + 1 := ⟨path.length - 1, by omega⟩
  rw [partsOf, hn, cutLoop, hcut]
  simp only
  rw [cutLoop_eq hsep (by omega)]

/-- A path without a separator is one part. -/
theorem partsOf_of_not_cut {sep path : Bytes} (hcut : cut sep path = none) :
    partsOf sep path = [path] := by
  rw [partsOf]
  cases path.length with
  | zero => rfl
  | succ n => rw [cutLoop, hcut]

/-- The first part is empty when the path starts with the separator. -/
theorem prefix_of_cut {sep path rest : Bytes} (hcut : cut sep path = some ([], rest)) :
    sep <+: path ∧ rest = path.drop sep.length := by
  cases path with
  | nil => cases hcut
  | cons b path =>
    rw [cut] at hcut
    split at hcut
    · next hstart =>
      obtain ⟨-, rfl⟩ : ([] : Bytes) = [] ∧ (b :: path).drop sep.length = rest := by
        simpa using hcut
      exact ⟨hstart, rfl⟩
    · obtain ⟨found, -, heq⟩ := Option.map_eq_some_iff.mp hcut
      cases heq

/-- A path that begins with the separator has an empty part in front. -/
theorem cut_of_prefix {sep path : Bytes} (hsep : sep ≠ []) (hstart : sep <+: path) :
    cut sep path = some ([], path.drop sep.length) := by
  cases path with
  | nil => exact absurd (List.prefix_nil.mp hstart) hsep
  | cons b path => rw [cut, if_pos hstart]

/-- Behind the first position, the rounds go along the parts of the path. -/
theorem getRounds_later {sep : Bytes} (hsep : sep ≠ []) {rounds : ℕ} {k : Bytes}
    (hrounds : k.length < rounds) (cur : Value) :
    getRounds h sep rounds false k cur = some (getKeys h cur (viewKeys sep k)) := by
  induction rounds generalizing k cur with
  | zero => cases hrounds
  | succ rounds ih =>
    cases hcut : cut sep k with
    | none =>
      rw [viewKeys, partsOf_of_not_cut hcut]
      cases cur with
      | table t =>
        simp only [getRounds, hcut, List.map_cons, List.map_nil, getKeys]
        by_cases hnil : rawget (h.fields t) (PushPathPart k) = .nil
        · rw [hnil]
          rfl
        · rw [if_neg (by simpa using hnil)]
      | _ => simp only [getRounds, hcut, List.map_cons, getKeys]
    | some found =>
      obtain ⟨part, rest⟩ := found
      have hlt := length_of_cut hsep hcut
      rw [viewKeys, partsOf_of_cut hsep hcut, List.map_cons]
      cases cur with
      | table t =>
        simp only [getRounds, hcut, getKeys, Bool.false_eq_true, false_and, if_false]
        by_cases hnil : (rawget (h.fields t) (PushPathPart part)).isNil = true
        · rw [if_pos hnil, if_pos hnil]
        · rw [if_neg hnil, if_neg hnil]
          exact ih (by omega) _
      | _ => simp only [getRounds, hcut, getKeys, Bool.false_eq_true, false_and, if_false]

/-- The rounds go along the keys of the path. -/
theorem getRounds_first {sep : Bytes} (hsep : sep ≠ []) {rounds : ℕ} {k : Bytes}
    (hrounds : k.length < rounds) (cur : Value) :
    getRounds h sep rounds true k cur = some (getKeys h cur (tableKeys sep k)) := by
  obtain ⟨rounds, rfl⟩ : ∃ n, rounds = n + 1 := ⟨rounds - 1, by omega⟩
  by_cases hstart : sep <+: k
  · have hcut := cut_of_prefix hsep hstart
    have hlt := length_of_cut hsep hcut
    have hrest : (k.drop sep.length).length < rounds := by omega
    rw [tableKeys, if_pos hstart, ← getRounds_later hsep hrest cur]
    simp only [getRounds, hcut, true_and, if_true]
  · rw [tableKeys, if_neg hstart, ← getRounds_later hsep hrounds cur]
    cases hcut : cut sep k with
    | none => simp only [getRounds, hcut]
    | some found =>
      obtain ⟨part, rest⟩ := found
      have hpart : part ≠ [] := by
        rintro rfl
        exact hstart (prefix_of_cut hcut).1
      simp only [getRounds, hcut, hpart, and_false, if_false, Bool.false_eq_true]

/-- `Get` ends, however the path is made. -/
theorem Get_eq {sep path : Bytes} (hsep : sep ≠ []) {rounds : ℕ} (hrounds : path.length < rounds)
    (t : ℕ) : Get h sep path rounds t = some (getKeys h (.table t) (pathKeys sep path)) := by
  unfold Get pathKeys
  split
  · rfl
  · exact getRounds_first hsep hrounds _

/-! ## Values on the way -/

variable {rt : Runtime} {calls : ℕ}

/-- Through tables, the walk finds the value at the end of the keys. -/
theorem TablesOnly.getKeys_eq {v : Value} {keys : List LuaKey} (hv : TablesOnly h v keys) :
    ∃ x, follow rt h calls v keys = some x ∧ getKeys h v keys = .value x := by
  induction keys generalizing v with
  | nil => exact ⟨v, rfl, by cases v <;> rfl⟩
  | cons k rest ih =>
    cases v with
    | table t =>
      rw [follow_cons, readKey, Option.bind_some, getKeys]
      by_cases hnil : rawget (h.fields t) k = .nil
      · rw [hnil, follow_nil]
        exact ⟨.nil, rfl, rfl⟩
      · rw [if_neg (by simpa using hnil)]
        exact ih (hv.resolve_left hnil)
    | _ => exact hv.elim

/-- A scalar or a view on the way is read as if it were a table. -/
theorem getKeys_of_not_tablesOnly {v : Value} {keys : List LuaKey} (hv : ¬ TablesOnly h v keys) :
    getKeys h v keys = .undefined := by
  induction keys generalizing v with
  | nil => exact absurd trivial hv
  | cons k rest ih =>
    cases v with
    | table t =>
      obtain ⟨hnil, hrest⟩ := not_or.mp hv
      rw [getKeys, if_neg (by simpa using hnil)]
      exact ih hrest
    | _ => rfl

/-- Where `get` ends with a value, it has come to no scalar and no view before the end. -/
theorem GetsValue.tablesOnly {sep path : Bytes} (hsep : sep ≠ []) {t : ℕ}
    (hgets : GetsValue h rt calls sep path t) : TablesOnly h (.table t) (pathKeys sep path) := by
  obtain ⟨v, -, n, hget⟩ := hgets
  by_contra hnot
  have hvalue := hget (max n (path.length + 1)) (le_max_left _ _)
  rw [Get_eq hsep (Nat.lt_of_succ_le (le_max_right _ _)), getKeys_of_not_tablesOnly hnot] at hvalue
  cases Option.some.inj hvalue

/-- `get` of a table ends with the value at the path exactly when it comes to no scalar and no view
before the end of the path. -/
theorem getsValue_iff {sep : Bytes} (hsep : sep ≠ []) (rt : Runtime) (h : Heap) (calls : ℕ)
    (path : Bytes) (t : ℕ) :
    GetsValue h rt calls sep path t ↔ TablesOnly h (.table t) (pathKeys sep path) := by
  constructor
  · exact fun hgets => hgets.tablesOnly hsep
  · intro htables
    obtain ⟨x, hfollow, hkeys⟩ := @TablesOnly.getKeys_eq h rt calls _ _ htables
    refine ⟨x, hfollow, path.length + 1, fun rounds hrounds => ?_⟩
    rw [Get_eq hsep (Nat.lt_of_succ_le hrounds), hkeys]

/-- A table that holds itself. -/
theorem getsValue_cycle : GetsValue ⟨[[(.string [97], .table 0), (.string [98], .integer 1)]], []⟩
    .unused 200 [58] [97, 58, 97, 58, 98] 0 := by
  refine (getsValue_iff (by decide) .unused _ 200 _ 0).mpr ?_
  exact Or.inr (Or.inr (Or.inr trivial))

/-- The number under `a` is indexed with `b`, and so is the view under `m` with `x`. -/
theorem not_getsValue_below :
    ¬ GetsValue ⟨[[(.string [97], .integer 1)]], []⟩ .unused 200 [58] [97, 58, 98] 0 ∧
    ¬ GetsValue ⟨[[(.string [109], .view 0 [] (.map [([120], .leaf (.bool true))]))]], [none]⟩
      .unused 200 [58] [109, 58, 120] 0 ∧
    follow .unused ⟨[[(.string [109], .view 0 [] (.map [([120], .leaf (.bool true))]))]], [none]⟩
      200 (.table 0) (pathKeys [58] [109, 58, 120]) = some (.boolean true) := by
  refine ⟨?_, ?_, by rfl⟩
  · intro hgets
    rcases hgets.tablesOnly (by decide) with hnil | hbelow
    · cases hnil
    · exact hbelow
  · intro hgets
    rcases hgets.tablesOnly (by decide) with hnil | hbelow
    · cases hnil
    · exact hbelow

end Radapter.Graph
