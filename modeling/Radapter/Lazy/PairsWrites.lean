import Radapter.Lazy.PairsAgree

/-!
# Writing while iterating over a view

A loop over the root view of a map follows the order of the retained map until its body writes for
the first time. That makes the message a table, and the iterator goes on with `next` from the key it
has reached, in the order of the table. The two orders have nothing to do with each other, so which
keys the loop still visits depends on where the table has the keys that were not visited yet.
-/

namespace Radapter.Lazy

open Library Lua

/-- An assignment in the body of a loop: to a field of the map itself, or elsewhere in the
message. -/
inductive Write where
  | field (k : LuaKey) (x : LuaValue)
  | elsewhere

/-- The keys behind a key in the order of a table. -/
def after (order : List LuaKey) (k : LuaKey) : List LuaKey := order.drop (order.idxOf k + 1)

/-- `next` on a table whose slots are in the given order: the first field that is not empty, from
the start or behind a key. The outer `none` is the error for a key that the table does not have. -/
def next (order : List LuaKey) (fields : Fields) : Option LuaKey → Option (Option LuaKey)
  | none => some (order.find? fun k => !(rawget fields k).isNil)
  | some k =>
      if k ∈ order then some ((after order k).find? fun j => !(rawget fields j).isNil) else none

section Loop

variable (fl : Floats) (entries : List (QString × QVariant)) (order : List LuaKey)
  (body : ℕ → List Write)

/-- The key `NextPair` gives: from the retained map, or from the table once there is one. -/
def nextPairKey (table : Option Fields) (control : Option LuaKey) : Option (Option LuaKey) :=
  match table with
  | some fields => next order fields control
  | none => some ((NextPair fl ⟨[], .map entries⟩ control).map Prod.fst)

/-- `NodeNewIndex` in the body. Every write makes the message a table. -/
def write (table : Option Fields) : Write → Option Fields
  | .field k x => some (rawset (table.getD (pushMap fl [] entries)) k x)
  | .elsewhere => some (table.getD (pushMap fl [] entries))

/-- The keys that the loop visits, from round `n` on; `none` when an iterator raises an error or the
loop takes more rounds. -/
def visitLoop : ℕ → ℕ → Option Fields → Option LuaKey → Option (List LuaKey)
  | 0, _, _, _ => none
  | fuel + 1, n, table, control =>
      match nextPairKey fl entries order table control with
      | none => none
      | some none => some []
      | some (some k) =>
          (visitLoop fuel (n + 1) ((body n).foldl (write fl entries) table) (some k)).map (k :: ·)

/-- The keys of the map, as Lua sees them. -/
def mapKeys (entries : List (QString × QVariant)) : List LuaKey :=
  entries.map fun e => .string (toStdString e.1)

/-- The loop ends and has visited every key of the map exactly once. -/
def VisitsOnce : Prop :=
  ∃ fuel visited, visitLoop fl entries order body fuel 0 none none = some visited ∧
    visited.Perm (mapKeys entries)

end Loop

/-- The keys of a table in the order of its slots. -/
def IsOrder (fields : Fields) (order : List LuaKey) : Prop :=
  order.Nodup ∧ ∀ k, k ∈ order ↔ rawget fields k ≠ .nil

/-- The body assigns values to fields that exist; `nil` would remove them. -/
def AssignsExisting (order : List LuaKey) (body : ℕ → List Write) : Prop :=
  ∀ n k x, .field k x ∈ body n → k ∈ order ∧ x ≠ .nil

/-- The round in which the body writes for the first time. -/
def FirstWrite (body : ℕ → List Write) (j : ℕ) : Prop := body j ≠ [] ∧ ∀ i < j, body i = []

/-! ## The two halves of a loop -/

section Halves

variable (fl : Floats) {entries : List (QString × QVariant)} {order : List LuaKey}
  {body : ℕ → List Write}

/-- With more rounds the loop visits the same keys. -/
theorem visitLoop_mono {fuel more : ℕ} (hle : fuel ≤ more) {n : ℕ} {table : Option Fields}
    {control : Option LuaKey} {visited : List LuaKey}
    (h : visitLoop fl entries order body fuel n table control = some visited) :
    visitLoop fl entries order body more n table control = some visited := by
  induction fuel generalizing more n table control visited with
  | zero => cases h
  | succ fuel ih =>
    obtain ⟨more, rfl⟩ : ∃ m, more = m + 1 := ⟨more - 1, by omega⟩
    rw [visitLoop] at h ⊢
    split at h
    · cases h
    · exact h
    · obtain ⟨later, hlater, hvisited⟩ := Option.map_eq_some_iff.mp h
      rw [ih (by omega) hlater, Option.map_some, hvisited]

/-- The number of rounds does not matter for what is visited. -/
theorem visitLoop_unique {fuel more : ℕ} {n : ℕ} {table : Option Fields} {control : Option LuaKey}
    {visited other : List LuaKey}
    (h : visitLoop fl entries order body fuel n table control = some visited)
    (h' : visitLoop fl entries order body more n table control = some other) : visited = other := by
  have hmax := visitLoop_mono fl (Nat.le_max_left fuel more) h
  rw [visitLoop_mono fl (Nat.le_max_right fuel more) h'] at hmax
  exact (Option.some.inj hmax).symm

/-- Writes of values to existing fields keep all fields. -/
theorem foldl_write {writes : List Write} {fields : Fields}
    (hwrites : ∀ k x, .field k x ∈ writes → x ≠ .nil)
    (hfields : ∀ k ∈ order, rawget fields k ≠ .nil) :
    ∃ fields', writes.foldl (write fl entries) (some fields) = some fields' ∧
      ∀ k ∈ order, rawget fields' k ≠ .nil := by
  induction writes generalizing fields with
  | nil => exact ⟨fields, rfl, hfields⟩
  | cons first writes ih =>
    have hrest : ∀ k x, .field k x ∈ writes → x ≠ .nil :=
      fun k x hmem => hwrites k x (List.mem_cons_of_mem _ hmem)
    rw [List.foldl_cons]
    cases first with
    | elsewhere => exact ih hrest hfields
    | field k x =>
      apply ih hrest
      intro j hj
      rw [Option.getD_some]
      by_cases hjk : j = k
      · rw [hjk, rawget_rawset_self]
        exact hwrites k x (by simp)
      · rw [rawget_rawset_ne hjk]
        exact hfields j hj

/-- In a table whose fields all have values, `next` gives the key behind. -/
theorem next_eq {fields : Fields} (hfields : ∀ k ∈ order, rawget fields k ≠ .nil) {k : LuaKey}
    (hk : k ∈ order) : next order fields (some k) = some (after order k).head? := by
  rw [next, if_pos hk]
  cases hafter : after order k with
  | nil => rfl
  | cons j rest =>
    have hj : j ∈ order := List.mem_of_mem_drop (i := order.idxOf k + 1)
      (by rw [← after, hafter]; simp)
    rw [List.find?_cons_of_pos, List.head?_cons]
    rw [Bool.not_eq_true', Bool.eq_false_iff, ne_eq, LuaValue.isNil_iff]
    exact hfields j hj

/-- The keys behind the key that stands first behind another. -/
theorem after_head (hnodup : order.Nodup) {k j : LuaKey} {rest : List LuaKey}
    (h : after order k = j :: rest) : j ∈ order ∧ after order j = rest := by
  have hlt : order.idxOf k + 1 < order.length := by
    by_contra hge
    rw [after, List.drop_eq_nil_of_le (by omega)] at h
    cases h
  rw [after, List.drop_eq_getElem_cons hlt, List.cons.injEq] at h
  obtain ⟨hj, hrest⟩ := h
  refine ⟨by rw [← hj]; exact List.getElem_mem hlt, ?_⟩
  rw [after, ← hj, hnodup.idxOf_getElem, hrest]

/-- From a key of the table the loop visits the keys behind it. -/
theorem visitLoop_table (hnodup : order.Nodup) (hbody : AssignsExisting order body)
    {rest : List LuaKey} {n : ℕ} {fields : Fields} (hfields : ∀ k ∈ order, rawget fields k ≠ .nil)
    {k : LuaKey} (hk : k ∈ order) (hrest : after order k = rest) :
    visitLoop fl entries order body (rest.length + 1) n (some fields) (some k) = some rest := by
  induction rest generalizing n fields k with
  | nil => simp only [visitLoop, nextPairKey, next_eq hfields hk, hrest,
      List.head?_nil]
  | cons j rest ih =>
    obtain ⟨hj, hafter⟩ := after_head hnodup hrest
    obtain ⟨fields', hwrites, hfields'⟩ := @foldl_write fl entries order (body n) fields
      (fun k x hmem => (hbody n k x hmem).2) hfields
    rw [List.length_cons, visitLoop]
    simp only [nextPairKey, next_eq hfields hk, hrest, List.head?_cons, hwrites,
      ih hfields' hj hafter, Option.map_some]

/-- From a key that the table does not have the loop fails. -/
theorem visitLoop_error {k : LuaKey} (hk : k ∉ order) (fuel n : ℕ) (fields : Fields) :
    visitLoop fl entries order body fuel n (some fields) (some k) = none := by
  cases fuel with
  | zero => rfl
  | succ fuel => simp only [visitLoop, nextPairKey, next, if_neg hk]

/-- In the retained map the loop goes on with the next entry. -/
theorem nextPairKey_reached {before rest : List (QString × QVariant)}
    (hentries : entries = before ++ rest)
    (hsorted : (entries.map Prod.fst).Pairwise (· < ·)) (hread : KeysRead (.map entries)) :
    nextPairKey fl entries order none (reached before) =
      some (rest.head?.map fun e => .string (toStdString e.1)) := by
  subst hentries
  have hnext := nextEntry_reached hsorted (fun e he => hread e (List.mem_append_left _ he))
  simp only [nextPairKey, NextPair, hnext, Option.map_map]
  rfl

/-- A loop whose body never writes visits the entries in order. -/
theorem visitLoop_silent (hsorted : (entries.map Prod.fst).Pairwise (· < ·))
    (hread : KeysRead (.map entries)) {before rest : List (QString × QVariant)}
    (hentries : entries = before ++ rest) (hsilent : ∀ i < entries.length, body i = []) :
    visitLoop fl entries order body (rest.length + 1) before.length none (reached before) =
      some (mapKeys rest) := by
  induction rest generalizing before with
  | nil =>
    simp only [visitLoop, nextPairKey_reached fl hentries hsorted hread, List.head?_nil,
      Option.map_none]
    rfl
  | cons e rest ih =>
    have hround : body before.length = [] := hsilent _ (by rw [hentries]; simp)
    have hreached : reached (before ++ [e]) = some (.string (toStdString e.1)) := by simp [reached]
    have hlater := @ih (before ++ [e]) (by rw [hentries]; simp)
    rw [hreached, List.length_append, List.length_singleton] at hlater
    rw [List.length_cons, visitLoop]
    simp only [nextPairKey_reached fl hentries hsorted hread, List.head?_cons, Option.map_some,
      hround, List.foldl_nil, hlater]
    rfl

/-- The first write makes the message a table with all its fields. -/
theorem foldl_write_none (horder : IsOrder (pushMap fl [] entries) order) {writes : List Write}
    (hne : writes ≠ []) (hwrites : ∀ k x, .field k x ∈ writes → x ≠ .nil) :
    ∃ fields, writes.foldl (write fl entries) none = some fields ∧
      ∀ k ∈ order, rawget fields k ≠ .nil := by
  obtain ⟨first, writes, rfl⟩ := List.exists_cons_of_ne_nil hne
  have hsame : (first :: writes).foldl (write fl entries) none =
      (first :: writes).foldl (write fl entries) (some (pushMap fl [] entries)) := by
    cases first <;> rfl
  rw [hsame]
  exact foldl_write fl hwrites (fun k hk => (horder.2 k).mp hk)

/-- A loop that writes for the first time when it has reached an entry goes on from there in the
table. -/
theorem visitLoop_writes (hsorted : (entries.map Prod.fst).Pairwise (· < ·))
    (hread : KeysRead (.map entries)) (horder : IsOrder (pushMap fl [] entries) order)
    (hbody : AssignsExisting order body) {before middle : List (QString × QVariant)}
    {e : QString × QVariant} {rest : List (QString × QVariant)}
    (hentries : entries = before ++ (middle ++ e :: rest))
    (hfirst : FirstWrite body (before.length + middle.length)) :
    ∃ fields, (∀ k ∈ order, rawget fields k ≠ .nil) ∧ ∀ fuel,
      visitLoop fl entries order body (fuel + middle.length + 1) before.length none
          (reached before) =
        (visitLoop fl entries order body fuel (before.length + middle.length + 1) (some fields)
          (some (.string (toStdString e.1)))).map (mapKeys (middle ++ [e]) ++ ·) := by
  have hnext := @nextPairKey_reached fl entries order _ _ hentries hsorted hread
  induction middle generalizing before with
  | nil =>
    rw [List.length_nil, Nat.add_zero] at hfirst
    obtain ⟨fields, hwrites, hfields⟩ := foldl_write_none fl horder hfirst.1
      (fun k x hmem => (hbody _ k x hmem).2)
    refine ⟨fields, hfields, fun fuel => ?_⟩
    rw [List.length_nil, Nat.add_zero, Nat.add_zero, visitLoop]
    simp only [hnext, List.nil_append, List.head?_cons, Option.map_some, hwrites]
    rfl
  | cons d middle ih =>
    have happend : before ++ (d :: middle ++ e :: rest) =
        before ++ [d] ++ (middle ++ e :: rest) := by
      simp
    have hround : body before.length = [] := hfirst.2 _ (by rw [List.length_cons]; omega)
    have hlength : (before ++ [d]).length = before.length + 1 := by simp
    have hsplit : entries = before ++ [d] ++ (middle ++ e :: rest) := by rw [hentries, happend]
    obtain ⟨fields, hfields, hlater⟩ := @ih (before ++ [d]) hsplit
      (by rw [hlength, Nat.add_right_comm, Nat.add_assoc]; exact hfirst)
      (nextPairKey_reached fl hsplit hsorted hread)
    have hreached : reached (before ++ [d]) = some (.string (toStdString d.1)) := by simp [reached]
    refine ⟨fields, hfields, fun fuel => ?_⟩
    have hfuel : fuel + (d :: middle).length + 1 = fuel + middle.length + 1 + 1 := by
      rw [List.length_cons]
      omega
    have hround' : before.length + (d :: middle).length + 1 =
        (before ++ [d]).length + middle.length + 1 := by
      rw [hlength, List.length_cons]
      omega
    rw [hfuel, hround', visitLoop]
    have hstep := hlater fuel
    rw [hreached, hlength] at hstep
    simp only [hnext, List.cons_append, List.head?_cons, Option.map_some, hround, List.foldl_nil,
      hstep, hlength, Option.map_map]
    rfl

end Halves

/-! ## Every key once -/

/-- Some round writes first, or none does. -/
theorem firstWrite_or_silent (body : ℕ → List Write) (n : ℕ) :
    (∃ j < n, FirstWrite body j) ∨ ∀ i < n, body i = [] := by
  induction n with
  | zero => exact .inr fun i hi => absurd hi (Nat.not_lt_zero i)
  | succ n ih =>
    rcases ih with ⟨j, hj, hfirst⟩ | hsilent
    · exact .inl ⟨j, by omega, hfirst⟩
    · by_cases hn : body n = []
      · right
        intro i hi
        rcases Nat.lt_succ_iff_lt_or_eq.mp hi with hlt | rfl
        · exact hsilent i hlt
        · exact hn
      · exact .inl ⟨n, by omega, hn, hsilent⟩

/-- There is one first write. -/
theorem FirstWrite.unique {body : ℕ → List Write} {i j : ℕ} (hi : FirstWrite body i)
    (hj : FirstWrite body j) : i = j := by
  rcases Nat.lt_trichotomy i j with hlt | heq | hgt
  · exact absurd (hj.2 i hlt) hi.1
  · exact heq
  · exact absurd (hi.2 j hgt) hj.1

/-- A loop that writes for the first time when it has reached an entry visits every key exactly once
exactly when the table has the keys of the remaining entries behind that of the entry. -/
theorem visitsOnce_iff_of_firstWrite (fl : Floats) {entries : List (QString × QVariant)}
    (hsorted : (entries.map Prod.fst).Pairwise (· < ·)) (hread : KeysRead (.map entries))
    {order : List LuaKey} (horder : IsOrder (pushMap fl [] entries) order)
    {body : ℕ → List Write} (hbody : AssignsExisting order body)
    {middle rest : List (QString × QVariant)} {e : QString × QVariant}
    (hentries : entries = middle ++ e :: rest) (hfirst : FirstWrite body middle.length) :
    VisitsOnce fl entries order body ↔ .string (toStdString e.1) ∈ order ∧
      (after order (.string (toStdString e.1))).Perm (mapKeys rest) := by
  obtain ⟨fields, hfields, hloop⟩ := @visitLoop_writes fl entries order body hsorted hread horder
    hbody [] middle e rest hentries (by rw [List.length_nil, Nat.zero_add]; exact hfirst)
  have htable := fun k (hk : k ∈ order) => @visitLoop_table fl entries order body horder.1 hbody _
    (0 + middle.length + 1) fields hfields k hk rfl
  have hkeys : mapKeys entries = mapKeys (middle ++ [e]) ++ mapKeys rest := by
    rw [hentries, mapKeys, mapKeys, mapKeys, ← List.map_append, List.append_assoc,
      List.singleton_append]
  constructor
  · rintro ⟨fuel, visited, hvisits, hperm⟩
    have hmore := visitLoop_mono fl (Nat.le_add_right fuel (middle.length + 1)) hvisits
    rw [← Nat.add_assoc] at hmore
    obtain ⟨later, hlater, rfl⟩ := Option.map_eq_some_iff.mp ((hloop fuel).symm.trans hmore)
    by_cases hk : .string (toStdString e.1) ∈ order
    · rw [List.length_nil] at hlater
      rw [hkeys, List.perm_append_left_iff, visitLoop_unique fl hlater (htable _ hk)] at hperm
      exact ⟨hk, hperm⟩
    · rw [visitLoop_error fl hk] at hlater
      cases hlater
  · rintro ⟨hk, hperm⟩
    have hvisits := hloop ((after order (.string (toStdString e.1))).length + 1)
    rw [List.length_nil, htable _ hk, Option.map_some] at hvisits
    refine ⟨_, _, hvisits, ?_⟩
    rw [hkeys, List.perm_append_left_iff]
    exact hperm

/-- The loop visits every key exactly once exactly when it writes nothing, or the key it has reached
at its first write is followed in the table by the keys that are not visited yet. -/
theorem visitsOnce_iff (fl : Floats) {entries : List (QString × QVariant)}
    (hsorted : (entries.map Prod.fst).Pairwise (· < ·)) (hread : KeysRead (.map entries))
    {order : List LuaKey} (horder : IsOrder (pushMap fl [] entries) order)
    {body : ℕ → List Write} (hbody : AssignsExisting order body) :
    VisitsOnce fl entries order body ↔ ∀ j e, FirstWrite body j → entries[j]? = some e →
      .string (toStdString e.1) ∈ order ∧
        (after order (.string (toStdString e.1))).Perm (mapKeys (entries.drop (j + 1))) := by
  rcases firstWrite_or_silent body entries.length with ⟨j, hj, hfirst⟩ | hsilent
  · have hentries : entries = entries.take j ++ entries[j] :: entries.drop (j + 1) := by
      rw [← List.drop_eq_getElem_cons hj, List.take_append_drop]
    have hlength : (entries.take j).length = j := by rw [List.length_take]; omega
    rw [visitsOnce_iff_of_firstWrite fl hsorted hread horder hbody hentries (by rwa [hlength])]
    constructor
    · intro h i e hi he
      obtain rfl := hi.unique hfirst
      rw [List.getElem?_eq_getElem hj] at he
      obtain rfl := Option.some.inj he
      exact h
    · intro h
      exact h j _ hfirst (List.getElem?_eq_getElem hj)
  · have hloop := @visitLoop_silent fl entries order body hsorted hread [] entries rfl hsilent
    refine iff_of_true ⟨_, _, hloop, .rfl⟩ ?_
    intro j e hfirst he
    obtain ⟨hj, -⟩ := List.getElem?_eq_some_iff.mp he
    exact absurd (hsilent j hj) hfirst.1

/-- A map with the keys `a` and `b`. -/
def twoEntries : List (QString × QVariant) :=
  [([97], .leaf (.bool true)), ([98], .leaf (.bool true))]

/-- A body that assigns to the field `b` in the first round. -/
def writesFirst (n : ℕ) : List Write :=
  if n = 0 then [.field (.string [98]) (.boolean false)] else []

/-- The sample's keys are read back. -/
theorem keysRead_twoEntries : KeysRead (.map twoEntries) := by
  intro e he
  simp only [twoEntries, List.mem_cons, List.not_mem_nil, or_false] at he
  rcases he with rfl | rfl
  · decide
  · decide

/-- The table of the map may have either order. -/
theorem isOrder_twoEntries {order : List LuaKey} (h : order.Perm [.string [97], .string [98]]) :
    IsOrder (pushMap .unused [] twoEntries) order := by
  refine ⟨h.nodup_iff.mpr (by decide), fun k => ?_⟩
  rw [h.mem_iff, rawget_pushMap_ne_nil .unused (by decide) keysRead_twoEntries
    (by simp [twoEntries, QVariant.invalid])]
  have ha : toStdString [97] = [97] := by decide
  have hb : toStdString [98] = [98] := by decide
  simp [twoEntries, ha, hb, eq_comm]

/-- Its body assigns to a field that exists. -/
theorem assignsExisting_writesFirst {order : List LuaKey} (h : .string [98] ∈ order) :
    AssignsExisting order writesFirst := by
  intro n k x hmem
  unfold writesFirst at hmem
  split at hmem
  · obtain ⟨rfl, rfl⟩ : k = .string [98] ∧ x = .boolean false := by simpa using hmem
    exact ⟨h, by simp⟩
  · cases hmem

/-- It does so in the first round. -/
theorem firstWrite_writesFirst : FirstWrite writesFirst 0 := by
  constructor
  · simp [writesFirst]
  · omega

/-- A loop that writes in its first round, with a table in the order of the map. -/
theorem visitsOnce_in_order :
    VisitsOnce .unused twoEntries [.string [97], .string [98]] writesFirst := by
  refine (visitsOnce_iff .unused (by decide) keysRead_twoEntries (isOrder_twoEntries .rfl)
    (assignsExisting_writesFirst (by simp))).mpr ?_
  intro j e hfirst he
  obtain rfl := hfirst.unique firstWrite_writesFirst
  obtain rfl := Option.some.inj he
  decide

/-- With the table in the other order the loop does not visit the second key. -/
theorem not_visitsOnce_reversed :
    ¬ VisitsOnce .unused twoEntries [.string [98], .string [97]] writesFirst := by
  rw [visitsOnce_iff_of_firstWrite .unused (by decide) keysRead_twoEntries
    (isOrder_twoEntries (.swap _ _ _)) (assignsExisting_writesFirst (by simp))
    (show twoEntries = [] ++ ([97], .leaf (.bool true)) :: [([98], .leaf (.bool true))] from rfl)
    firstWrite_writesFirst]
  decide

end Radapter.Lazy
