import Radapter.Graph.Get

/-!
# `set` below a view

`Set` goes down through tables and puts a new table in place of anything else, a view of a message
included. What the message held beside the path is then no longer there.
-/

namespace Radapter.Graph

open Library Lua Lazy

/-- The loop of `Set` along the keys of a path: a level that is no table is replaced by a new
one. -/
def setKeys (v : Value) : List LuaKey → ℕ → Heap → Heap
  | [], _, h => h
  | [k], cur, h => h.rawset cur k v
  | k :: rest, cur, h =>
      match rawget (h.fields cur) k with
      | .table t => setKeys v rest t h
      | _ => setKeys v rest h.tables.length (h.newtable.rawset cur k (.table h.tables.length))

/-- `Set` of a table. -/
def Set (h : Heap) (sep path : Bytes) (v : Value) (t : ℕ) : Heap :=
  setKeys v (pathKeys sep path) t h

/-- The value that keys lead to through tables. -/
def tablesTo (h : Heap) : Value → List LuaKey → Option Value
  | v, [] => some v
  | .table t, k :: rest => tablesTo h (rawget (h.fields t) k) rest
  | _, _ :: _ => none

section Statements

variable (rt : Runtime) (calls : ℕ)

/-- What was found below `above`, on paths that part ways with `below`, is still found. -/
def KeepsBeside (h h' : Heap) (t : ℕ) (above below : List LuaKey) : Prop :=
  ∀ keys x, Diverge keys below → follow rt h calls (.table t) (above ++ keys) = some x → x ≠ .nil →
    follow rt h' calls (.table t) (above ++ keys) = some x

/-- Nothing is found in a value on paths that part ways with `below`. -/
def NothingBeside (h : Heap) (v : Value) (below : List LuaKey) : Prop :=
  ∀ keys x, Diverge keys below → follow rt h calls v keys = some x → x = .nil

end Statements

variable {rt : Runtime} {calls : ℕ} {h : Heap} {v : Value}

/-! ## The way down -/

/-- What tables lead to is found there. -/
theorem follow_of_tablesTo {u w : Value} {above : List LuaKey} (hto : tablesTo h u above = some w)
    (keys : List LuaKey) :
    follow rt h calls u (above ++ keys) = follow rt h calls w keys := by
  induction above generalizing u with
  | nil =>
    obtain rfl : u = w := Option.some.inj hto
    rfl
  | cons k above ih =>
    cases u with
    | table t =>
      rw [List.cons_append, follow_cons, readKey, Option.bind_some]
      exact ih hto
    | _ => cases hto

/-- The last key of a way to something else than its start. -/
theorem tablesTo_concat {u w : Value} {above : List LuaKey} {k : LuaKey}
    (hto : tablesTo h u (above ++ [k]) = some w) :
    ∃ s, tablesTo h u above = some (.table s) ∧ rawget (h.fields s) k = w := by
  induction above generalizing u with
  | nil =>
    cases u with
    | table s => exact ⟨s, rfl, Option.some.inj hto⟩
    | _ => cases hto
  | cons j above ih =>
    cases u with
    | table t => exact ih hto
    | _ => cases hto

/-- The way to a table is kept when nothing changes but a field of this table that leads to no
table: the way does not use that field. -/
theorem tablesTo_of_field_ne {h' : Heap} {u : Value} {s : ℕ} {k : LuaKey} {above : List LuaKey}
    (hto : tablesTo h u above = some (.table s)) (hk : (rawget (h.fields s) k).isTable = false)
    (hsame : ∀ r j, rawget (h.fields r) j ≠ .nil → ¬ (r = s ∧ j = k) →
      rawget (h'.fields r) j = rawget (h.fields r) j) :
    tablesTo h' u above = some (.table s) := by
  induction above generalizing u with
  | nil => exact hto
  | cons j above ih =>
    cases u with
    | table r =>
      rw [tablesTo] at hto ⊢
      cases hnext : rawget (h.fields r) j with
      | table next =>
        rw [hsame r j (by simp [hnext])]
        · rw [hnext] at hto ⊢
          exact ih hto
        · rintro ⟨rfl, rfl⟩
          rw [hnext] at hk
          cases hk
      | _ =>
        rw [hnext] at hto
        cases above <;> cases hto
    | _ => cases hto

/-- The loop goes down through tables without changing them. -/
theorem setKeys_of_tablesTo {t s : ℕ} {above below : List LuaKey} (hbelow : below ≠ [])
    (hto : tablesTo h (.table t) above = some (.table s)) :
    setKeys v (above ++ below) t h = setKeys v below s h := by
  induction above generalizing t with
  | nil =>
    obtain rfl : t = s := Value.table.inj (Option.some.inj hto)
    rfl
  | cons k above ih =>
    obtain ⟨j, more, hmore⟩ := List.exists_cons_of_ne_nil
      (show above ++ below ≠ [] by simp [hbelow])
    rw [List.cons_append, hmore, setKeys, ← hmore]
    · cases hfield : rawget (h.fields t) k with
      | table next =>
        apply ih
        rwa [tablesTo, hfield] at hto
      | _ =>
        rw [tablesTo, hfield] at hto
        cases above <;> cases hto
    · simp

/-! ## New tables -/

/-- A table with one field has no other. -/
theorem follow_of_one_field {n : ℕ} {j k : LuaKey} {x : Value}
    (hfields : h.fields n = Graph.rawset [] j x) (hk : k ≠ j) (keys : List LuaKey) :
    follow rt h calls (.table n) (k :: keys) = some .nil := by
  rw [follow_cons, readKey, Option.bind_some, hfields, rawget_rawset_ne hk]
  exact follow_nil rt h calls keys

/-- Below an empty table at the end of the heap, the loop makes new tables: it changes none of those
before it, and there is nothing beside its path. -/
theorem setKeys_new {n : ℕ} {below : List LuaKey} (hbelow : below ≠ [])
    (hlast : h.tables.length = n + 1) (hempty : h.fields n = []) :
    (∀ t < n, (setKeys v below n h).fields t = h.fields t) ∧
      ∀ keys, Diverge keys below →
        follow rt (setKeys v below n h) calls (.table n) keys = some .nil := by
  induction below generalizing h n with
  | nil => exact absurd rfl hbelow
  | cons j rest ih =>
    cases rest with
    | nil =>
      rw [setKeys]
      refine ⟨fun t ht => Heap.fields_rawset_ne (Nat.ne_of_lt ht) j v, ?_⟩
      rintro keys ⟨i, k, x, hk, hx, hne⟩
      obtain rfl : i = 0 := by
        have hi := (List.getElem?_eq_some_iff.mp hx).1
        rw [List.length_singleton] at hi
        omega
      obtain rfl : j = x := Option.some.inj hx
      cases keys with
      | nil => cases hk
      | cons first keys =>
        obtain rfl : first = k := Option.some.inj hk
        have hfield : (h.rawset n j v).fields n = Graph.rawset [] j v := by
          rw [Heap.fields_rawset_self (by omega), hempty]
        exact follow_of_one_field hfield hne keys
    | cons i rest =>
      have hset : setKeys v (j :: i :: rest) n h =
          setKeys v (i :: rest) (n + 1) (h.newtable.rawset n j (.table (n + 1))) := by
        have hnew : rawget (h.fields n) j = .nil := by rw [hempty]; rfl
        rw [setKeys, hnew, hlast]
        simp
      have hlength : (h.newtable.rawset n j (.table (n + 1))).tables.length = n + 1 + 1 := by
        rw [Heap.length_rawset, Heap.length_newtable, hlast]
      have hnext : (h.newtable.rawset n j (.table (n + 1))).fields (n + 1) = [] := by
        have hfresh := @Heap.fields_newtable_self h
        rw [hlast] at hfresh
        rw [Heap.fields_rawset_ne (Nat.succ_ne_self n), hfresh]
      have hfield : (h.newtable.rawset n j (.table (n + 1))).fields n =
          Graph.rawset [] j (.table (n + 1)) := by
        rw [Heap.fields_rawset_self (by rw [Heap.length_newtable]; omega), Heap.fields_newtable,
          hempty]
      obtain ⟨hold, hnone⟩ := ih (by simp) hlength hnext
      rw [hset]
      constructor
      · intro t ht
        rw [hold t (by omega), Heap.fields_rawset_ne (by omega), Heap.fields_newtable]
      · intro keys hkeys
        have hlater := (hold n (by omega)).trans hfield
        cases keys with
        | nil => exact absurd List.nil_prefix hkeys.not_prefix
        | cons k keys =>
          by_cases hk : k = j
          · subst hk
            rw [follow_cons, readKey, Option.bind_some, hlater, rawget_rawset_self]
            exact hnone keys hkeys.of_cons
          · exact follow_of_one_field hlater hk keys

/-! ## Setting below a view -/

/-- After `set` below something that is no table, there is a new table in its place, with nothing
beside the path. -/
theorem follow_set_below {t : ℕ} {above below : List LuaKey} {u : Value}
    (hto : tablesTo h (.table t) above = some u) (hu : u.isTable = false) (hnil : u ≠ .nil)
    (hbelow : below ≠ []) {keys : List LuaKey} (hkeys : Diverge keys below) :
    follow rt (setKeys v (above ++ below) t h) calls (.table t) (above ++ keys) = some .nil := by
  obtain ⟨front, k, rfl⟩ : ∃ front k, above = front ++ [k] := by
    rcases List.eq_nil_or_concat above with rfl | ⟨front, k, rfl⟩
    · obtain rfl : .table t = u := Option.some.inj hto
      cases hu
    · exact ⟨front, k, List.concat_eq_append⟩
  obtain ⟨s, hfront, hfield⟩ := tablesTo_concat hto
  have hs : s < h.tables.length := Heap.lt_of_rawget (hfield ▸ hnil)
  set n := h.tables.length with hn
  set g := h.newtable.rawset s k (.table n) with hg
  have hset : setKeys v (front ++ [k] ++ below) t h = setKeys v below n g := by
    obtain ⟨j, rest, rfl⟩ := List.exists_cons_of_ne_nil hbelow
    rw [List.append_assoc, setKeys_of_tablesTo (by simp) hfront, List.singleton_append, setKeys]
    · cases u with
      | table id => cases hu
      | _ => rw [hfield]
    · simp
  have hlast : g.tables.length = n + 1 := by
    rw [hg, Heap.length_rawset, Heap.length_newtable]
  have hempty : g.fields n = [] := by
    rw [hg, Heap.fields_rawset_ne (Nat.ne_of_gt hs), Heap.fields_newtable_self]
  obtain ⟨hold, hnone⟩ := @setKeys_new rt calls g v n below hbelow hlast hempty
  rw [hset]
  have hway : tablesTo (setKeys v below n g) (.table t) front = some (.table s) := by
    apply tablesTo_of_field_ne hfront (hfield ▸ hu)
    intro r j hr hne
    have hrn : r < n := Heap.lt_of_rawget hr
    rw [hold r hrn, hg]
    by_cases hrs : r = s
    · subst hrs
      have hj : j ≠ k := fun hjk => hne ⟨rfl, hjk⟩
      rw [Heap.fields_rawset_self (by rw [Heap.length_newtable]; omega), Heap.fields_newtable,
        rawget_rawset_ne hj]
    · rw [Heap.fields_rawset_ne hrs, Heap.fields_newtable]
  rw [List.append_assoc, follow_of_tablesTo hway, List.singleton_append, follow_cons,
    readKey, Option.bind_some, hold s hs, hg,
    Heap.fields_rawset_self (by rw [Heap.length_newtable]; omega), rawget_rawset_self]
  exact hnone keys hkeys

/-- `set` below a view keeps what the message holds beside the path exactly when it holds nothing
there. -/
theorem keepsBeside_iff {sep path : Bytes} {t m : ℕ} {above below : List LuaKey} {place : Path}
    {value : QVariant} (hpath : pathKeys sep path = above ++ below) (hbelow : below ≠ [])
    (hview : tablesTo h (.table t) above = some (.view m place value)) :
    KeepsBeside rt calls h (Set h sep path v t) t above below ↔
      NothingBeside rt calls h (.view m place value) below := by
  rw [Set, hpath]
  have hafter {keys : List LuaKey} (hkeys : Diverge keys below) :=
    @follow_set_below rt calls h v t above below _ hview rfl (by simp) hbelow keys hkeys
  constructor
  · intro hkeeps keys x hkeys hx
    by_contra hne
    have hlater := hkeeps keys x hkeys ((follow_of_tablesTo hview keys).trans hx) hne
    rw [hafter hkeys] at hlater
    exact hne (Option.some.inj hlater).symm
  · intro hnothing keys x hkeys hx hne
    rw [follow_of_tablesTo hview] at hx
    exact absurd (hnothing keys x hkeys hx) hne

/-- The message without fields keeps what it holds. -/
theorem keepsBeside_empty :
    KeepsBeside .unused 200 ⟨[[(.string [97], .view 0 [] (.map []))]], [none]⟩
      (Set ⟨[[(.string [97], .view 0 [] (.map []))]], [none]⟩ [58] [97, 58, 98] (.integer 5) 0) 0
      [.string [97]] [.string [98]] := by
  refine (keepsBeside_iff (by decide) (by simp) rfl).mpr ?_
  intro keys x hkeys hx
  cases keys with
  | nil => exact absurd List.nil_prefix hkeys.not_prefix
  | cons k keys =>
    have hnone : readKey .unused ⟨[[(.string [97], .view 0 [] (.map []))]], [none]⟩ 200
        (.view 0 [] (.map [])) k = some .nil := by
      cases k <;> rfl
    rw [follow_cons, hnone, Option.bind_some, follow_nil] at hx
    exact (Option.some.inj hx).symm

/-- Setting `a:x` where `a` holds a message with the fields `x` and `y`: the field `y` is gone. -/
theorem not_keepsBeside_fields :
    ¬ KeepsBeside .unused 200
      ⟨[[(.string [97], .view 0 [] (.map [([120], .leaf (.bool true)),
        ([121], .leaf (.bool false))]))]], [none]⟩
      (Set ⟨[[(.string [97], .view 0 [] (.map [([120], .leaf (.bool true)),
        ([121], .leaf (.bool false))]))]], [none]⟩ [58] [97, 58, 120] (.integer 5) 0) 0
      [.string [97]] [.string [120]] := by
  intro hkeeps
  have hlater := hkeeps [.string [121]] (.boolean false)
    ⟨0, .string [121], .string [120], rfl, rfl, by decide⟩ rfl (by simp)
  cases hlater

end Radapter.Graph
