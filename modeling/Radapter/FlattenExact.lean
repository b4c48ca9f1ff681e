import Radapter.FlattenPaths

/-!
# When flattening is exact

Every leaf visited after a map or list of its level gets a longer key than intended, or one that
no list index can spell. So `Flatten` agrees with `leafEntries` exactly on the trees that visit
their leaves first.
-/

namespace Radapter

/-! ## Keys only grow after a map entry's container -/

/-- Every key of a first entry exceeds the intended one by at least `d` bytes. -/
def LongerBy (d : ℕ) (got want : FlatMap) : Prop :=
  ∃ e es f fs, got = e :: es ∧ want = f :: fs ∧ f.1.length + d ≤ e.1.length

/-- A longer first key is a different list of entries. -/
theorem LongerBy.ne {d : ℕ} {got want : FlatMap} (h : LongerBy d got want) (hd : 0 < d) :
    got ≠ want := by
  obtain ⟨e, es, f, fs, rfl, rfl, hlen⟩ := h
  intro heq
  have hef : e = f := (List.cons.inj heq).1
  subst hef
  omega

/-- A first entry that is too long stays the first one, whatever follows. -/
private theorem LongerBy.append {d : ℕ} {got want a b : FlatMap} (h : LongerBy d got want) :
    LongerBy d (got ++ a) (want ++ b) := by
  obtain ⟨e, es, f, fs, rfl, rfl, hlen⟩ := h
  exact ⟨e, es ++ a, f, fs ++ b, rfl, rfl, hlen⟩

mutual

/-- Entering a subtree with a path string that is `d` bytes too long makes its first key at
least `d` bytes too long: shortened indices never make up for the bytes left behind, because
every item passed without a leaf leaves one. -/
theorem flatten_longerBy {d : ℕ} {p q : Bytes} {v : QVariant} (hp : p ≠ [])
    (hlen : p.length + d ≤ q.length) (hv : leaves v ≠ []) :
    LongerBy d (flatten q v).1 (entriesAt p (leaves v)) := by
  cases v with
  | leaf s =>
    refine ⟨_, _, _, _, rfl, rfl, ?_⟩
    have hpos := List.length_pos_iff.mpr hp
    simp only [keyAt, List.flatMap_nil, List.append_nil, List.length_dropLast]
    omega
  | map entries => exact flattenMap_longerBy hlen hv
  | list items => exact flattenList_longerBy hlen hv

/-- A path that is too long stays so below the entries of a map. -/
theorem flattenMap_longerBy {d : ℕ} {p q : Bytes} {entries : List (QString × QVariant)}
    (hlen : p.length + d ≤ q.length) (hv : leavesMap entries ≠ []) :
    LongerBy d (flattenMap q entries).1 (entriesAt p (leavesMap entries)) := by
  cases entries with
  | nil => simp [leavesMap] at hv
  | cons entry rest =>
    obtain ⟨key, v⟩ := entry
    simp only [flattenMap, leavesMap, entriesAt_below, mapPart]
    by_cases hleaf : leaves v = []
    · have hinner : (flatten (q ++ (toStdString key ++ [colon])) v).1 = [] :=
        List.length_eq_zero_iff.mp (by rw [flatten_length, hleaf, List.length_nil])
      have hrest : leavesMap rest ≠ [] := by simpa [leavesMap, hleaf] using hv
      obtain ⟨g, hg⟩ := leave_container q (toStdString key) (isContainer_of_leaves_nil hleaf)
      simp only [hinner, hleaf, entriesAt_nil, List.nil_append, hg]
      apply flattenMap_longerBy _ hrest
      rw [List.length_append]
      omega
    · refine (flatten_longerBy (by simp) ?_ hleaf).append
      simp only [List.length_append]
      omega

/-- It stays so below the items of a list. -/
theorem flattenList_longerBy {d : ℕ} {p q : Bytes} {idx : ℕ} {items : List QVariant}
    (hlen : p.length + d + idx ≤ q.length) (hv : leavesList idx items ≠ []) :
    LongerBy d (flattenList q idx items).1 (entriesAt p (leavesList idx items)) := by
  cases items with
  | nil => simp [leavesList] at hv
  | cons v rest =>
    simp only [flattenList, leavesList, entriesAt_below, listPart]
    by_cases hleaf : leaves v = []
    · have hinner : (flatten (q ++ (indexName (idx % 2 ^ 32) ++ [colon])) v).1 = [] :=
        List.length_eq_zero_iff.mp (by rw [flatten_length, hleaf, List.length_nil])
      have hrest : leavesList (idx + 1) rest ≠ [] := by simpa [leavesList, hleaf] using hv
      obtain ⟨g, hg⟩ := leave_container q (indexName (idx % 2 ^ 32))
        (isContainer_of_leaves_nil hleaf)
      simp only [hinner, hleaf, entriesAt_nil, List.nil_append, hg]
      apply flattenList_longerBy _ hrest
      have htake : ((indexName (idx % 2 ^ 32) ++ [colon] ++ g).take (g.length + 1)).length =
          g.length + 1 := by
        rw [List.length_take, List.length_append, List.length_append, List.length_singleton]
        omega
      rw [List.length_append, htake]
      omega
    · refine (flatten_longerBy (by simp) ?_ hleaf).append
      have hfull := decimal_length_le idx
      have hcut := decimal_length_pos (idx % 2 ^ 32)
      simp only [List.length_append, indexName, List.length_cons, List.length_nil]
      omega

end

/-! ## Keys of list items cannot be spelt by what a container leaves behind -/

mutual

/-- Every key written below a path string starts with that string, up to its last byte. -/
theorem flatten_key_extends {path : Bytes} {v : QVariant} {e : Bytes × QVariant}
    (he : e ∈ (flatten path v).1) : path.dropLast <+: e.1 := by
  cases v with
  | leaf s =>
    have hkey : e = (path.dropLast, .leaf s) := by simpa [flatten] using he
    exact hkey ▸ List.prefix_rfl
  | map entries => exact (List.dropLast_prefix path).trans (flattenMap_key_extends he)
  | list items => exact (List.dropLast_prefix path).trans (flattenList_key_extends he)

/-- The keys below a map extend its path. -/
theorem flattenMap_key_extends {path : Bytes} {entries : List (QString × QVariant)}
    {e : Bytes × QVariant} (he : e ∈ (flattenMap path entries).1) : path <+: e.1 := by
  cases entries with
  | nil => simp [flattenMap] at he
  | cons entry rest =>
    obtain ⟨key, v⟩ := entry
    obtain ⟨g, hg⟩ := leave_extends path (toStdString key) v (fun hv => flatten_path hv _)
    simp only [flattenMap, mapPart, List.mem_append, hg] at he
    rcases he with he | he
    · have hinner := flatten_key_extends he
      rw [← List.append_assoc, List.dropLast_concat] at hinner
      exact (List.prefix_append _ _).trans hinner
    · exact (List.prefix_append _ _).trans (flattenMap_key_extends he)

/-- So do the keys below a list. -/
theorem flattenList_key_extends {path : Bytes} {idx : ℕ} {items : List QVariant}
    {e : Bytes × QVariant} (he : e ∈ (flattenList path idx items).1) : path <+: e.1 := by
  cases items with
  | nil => simp [flattenList] at he
  | cons v rest =>
    obtain ⟨g, hg⟩ := leave_extends path (indexName (idx % 2 ^ 32)) v (fun hv => flatten_path hv _)
    simp only [flattenList, listPart, List.mem_append, hg] at he
    rcases he with he | he
    · have hinner := flatten_key_extends he
      rw [← List.append_assoc, List.dropLast_concat] at hinner
      exact (List.prefix_append _ _).trans hinner
    · exact (List.prefix_append _ _).trans (flattenList_key_extends he)

end

/-- The intended keys start with the path string too. -/
theorem entriesAt_key_extends {path : Bytes} {found : List (List Bytes × Scalar)}
    {e : Bytes × QVariant} (he : e ∈ entriesAt path found) : path.dropLast <+: e.1 := by
  obtain ⟨f, _, rfl⟩ := List.mem_map.mp he
  simp only [keyAt]
  by_cases hnil : f.1.flatMap (· ++ [colon]) = []
  · simp only [hnil, List.append_nil, List.prefix_rfl]
  · rw [List.dropLast_append_of_ne_nil hnil]
    exact (List.dropLast_prefix path).trans (List.prefix_append _ _)

/-- If a subtree with a leaf is entered under two path strings and still gets equal keys, the
two strings can be continued to one. -/
private theorem common_key {p q c c' : Bytes} {v : QVariant} (hv : leaves v ≠ [])
    (heq : (flatten (q ++ (c ++ [colon])) v).1 = entriesAt (p ++ (c' ++ [colon])) (leaves v)) :
    ∃ r r', q ++ c ++ r = p ++ c' ++ r' := by
  have hpos : 0 < (flatten (q ++ (c ++ [colon])) v).1.length := by
    rw [flatten_length]
    exact List.length_pos_iff.mpr hv
  obtain ⟨e, he⟩ := List.exists_mem_of_length_pos hpos
  have hgot := flatten_key_extends he
  have hwant := entriesAt_key_extends (heq ▸ he)
  rw [← List.append_assoc, List.dropLast_concat] at hgot hwant
  obtain ⟨r, hr⟩ := hgot
  obtain ⟨r', hr'⟩ := hwant
  exact ⟨r, r', hr.trans hr'.symm⟩

/-- A run of digits ends at the first byte that is no digit. -/
theorem digits_append_inj {a b r r' : Bytes} {x y : UInt8}
    (ha : ∀ c ∈ a, 48 ≤ c.toNat ∧ c.toNat ≤ 57) (hb : ∀ c ∈ b, 48 ≤ c.toNat ∧ c.toNat ≤ 57)
    (hx : 57 < x.toNat) (hy : 57 < y.toNat) (h : a ++ x :: r = b ++ y :: r') : a = b ∧ x = y := by
  induction a generalizing b with
  | nil =>
    cases b with
    | nil => exact ⟨rfl, (List.cons.inj h).1⟩
    | cons d b =>
      have hd := hb d (by simp)
      have hxd : x = d := (List.cons.inj h).1
      subst hxd
      omega
  | cons c a ih =>
    have hc := ha c (by simp)
    cases b with
    | nil =>
      have hcy : c = y := (List.cons.inj h).1
      subst hcy
      omega
    | cons d b =>
      obtain ⟨rfl, htail⟩ := List.cons.inj h
      obtain ⟨hab, hxy⟩ := ih (fun k hk => ha k (by simp [hk])) (fun k hk => hb k (by simp [hk]))
        htail
      exact ⟨by rw [hab], hxy⟩

/-- No item from `n` on has a name that starts with these bytes and a further bracket. -/
def Unspellable (n : ℕ) (g : Bytes) : Prop :=
  ∀ i, n ≤ i → ∀ r r', g ++ 91 :: r ≠ 91 :: (decimal i ++ 93 :: r')

/-- What a container at an index leaves behind is either a bracket with part of the index, or
the whole name of an item that has already been passed. -/
theorem unspellable_take (idx : ℕ) (g : Bytes) :
    Unspellable (idx + 1) ((indexName (idx % 2 ^ 32) ++ [colon] ++ g).take (g.length + 1)) := by
  intro i hi r r' h
  have hcut : idx % 2 ^ 32 ≤ idx := Nat.mod_le _ _
  simp only [indexName, List.cons_append, List.take_succ_cons, List.cons.injEq, true_and,
    List.append_assoc, List.nil_append, List.take_append] at h
  by_cases hshort : g.length ≤ (decimal (idx % 2 ^ 32)).length
  · rw [Nat.sub_eq_zero_of_le hshort, List.take_zero, List.nil_append] at h
    have hbr := digits_append_inj (fun c hc => decimal_digit (List.mem_of_mem_take hc))
      (fun c hc => decimal_digit hc) (by decide) (by decide) h
    exact absurd hbr.2 (by decide)
  · rw [List.take_of_length_le (by omega)] at h
    obtain ⟨k, hk⟩ : ∃ k, g.length - (decimal (idx % 2 ^ 32)).length = k + 1 :=
      ⟨g.length - (decimal (idx % 2 ^ 32)).length - 1, by omega⟩
    rw [hk, List.take_succ_cons, List.cons_append] at h
    have hdigits := digits_append_inj (fun c hc => decimal_digit hc)
      (fun c hc => decimal_digit hc) (by decide) (by decide) h
    have hidx := decimal_injective hdigits.1
    omega

/-- With a further bracket behind them the bytes begin no name either. -/
private theorem Unspellable.append {n : ℕ} {g : Bytes} (h : Unspellable n g) (t : Bytes) :
    Unspellable (n + 1) (g ++ 91 :: t) := by
  intro i hi r r'
  rw [List.append_assoc, List.cons_append]
  exact h i (by omega) (t ++ 91 :: r) r'

/-- Once the path string of a list has picked up such bytes, the next leaf below the list gets
a wrong key. -/
theorem flattenList_ne_of_unspellable {p g : Bytes} {idx : ℕ} {items : List QVariant}
    (hg : Unspellable idx g) (hv : leavesList idx items ≠ []) :
    (flattenList (p ++ g) idx items).1 ≠ entriesAt p (leavesList idx items) := by
  induction items generalizing g idx with
  | nil => simp [leavesList] at hv
  | cons v rest ih =>
    simp only [flattenList, leavesList, entriesAt_below, listPart]
    by_cases hleaf : leaves v = []
    · have hinner : (flatten (p ++ g ++ (indexName (idx % 2 ^ 32) ++ [colon])) v).1 = [] :=
        List.length_eq_zero_iff.mp (by rw [flatten_length, hleaf, List.length_nil])
      have hrest : leavesList (idx + 1) rest ≠ [] := by simpa [leavesList, hleaf] using hv
      obtain ⟨t, ht⟩ := leave_container (p ++ g) (indexName (idx % 2 ^ 32))
        (isContainer_of_leaves_nil hleaf)
      rw [hinner, hleaf, entriesAt_nil, List.nil_append, List.nil_append, ht, List.append_assoc p]
      exact ih (hg.append _) hrest
    · intro heq
      rw [append_eq_iff (by simp [flatten_length, entriesAt])] at heq
      obtain ⟨r, r', hkey⟩ := common_key hleaf heq.1
      rw [List.append_assoc p, List.append_assoc p, List.append_assoc p,
        List.append_cancel_left_eq] at hkey
      apply hg idx (Nat.le_refl idx) (decimal (idx % 2 ^ 32) ++ [93] ++ r) r'
      simpa [indexName] using hkey

/-- An index that does not fit the loop's counter spoils the keys below it. -/
private theorem flatten_ne_of_wrapped {p : Bytes} {idx : ℕ} {v : QVariant} (hidx : 2 ^ 32 ≤ idx)
    (hv : leaves v ≠ []) :
    (flatten (p ++ (indexName (idx % 2 ^ 32) ++ [colon])) v).1 ≠
      entriesAt (p ++ (indexName idx ++ [colon])) (leaves v) := by
  intro heq
  obtain ⟨r, r', hkey⟩ := common_key hv heq
  simp only [List.append_assoc, List.append_cancel_left_eq, indexName, List.cons_append,
    List.cons.injEq, true_and, List.nil_append] at hkey
  have hdigits := digits_append_inj (fun c hc => decimal_digit hc)
    (fun c hc => decimal_digit hc) (by decide) (by decide) hkey
  have heq' := decimal_injective hdigits.1
  have hlt := Nat.mod_lt idx (show 2 ^ 32 > 0 by decide)
  omega

/-! ## The exact condition -/

mutual

/-- A subtree gets its intended entries exactly when its leaves come first. -/
theorem flatten_eq_iff (path : Bytes) (v : QVariant) :
    (flatten path v).1 = entriesAt path (leaves v) ↔ LeavesFirst v := by
  cases v with
  | leaf s => simp [flatten, leaves, entriesAt, keyAt, LeavesFirst]
  | map entries => simpa only [flatten, leaves, LeavesFirst] using flattenMap_eq_iff path entries
  | list items => simpa only [flatten, leaves, LeavesFirst] using flattenList_eq_iff path 0 items

/-- Flattening a map gives what is intended exactly if leaves come first; induction on the entries.
-/
theorem flattenMap_eq_iff (path : Bytes) (entries : List (QString × QVariant)) :
    (flattenMap path entries).1 = entriesAt path (leavesMap entries) ↔ LeavesFirstMap entries := by
  cases entries with
  | nil => simp [flattenMap, leavesMap, LeavesFirstMap]
  | cons entry rest =>
    obtain ⟨key, v⟩ := entry
    simp only [flattenMap, leavesMap, entriesAt_below, mapPart, LeavesFirstMap]
    rw [append_eq_iff (by simp [flatten_length, entriesAt]), flatten_eq_iff]
    cases hv : v.isContainer with
    | false =>
      rw [leave_leaf path _ hv, flattenMap_eq_iff path rest]
      simp
    | true =>
      obtain ⟨g, hg⟩ := leave_container path (toStdString key) hv
      rw [hg]
      constructor
      · rintro ⟨hfirst, heq⟩
        have hnone : leavesMap rest = [] := by
          by_contra hrest
          refine (flattenMap_longerBy (d := 1) ?_ hrest).ne Nat.one_pos heq
          rw [List.length_append, List.length_take]
          simp only [List.length_append, List.length_singleton]
          omega
        exact ⟨hfirst, fun _ => hnone, .of_leaves_nil hnone⟩
      · rintro ⟨hfirst, hnone, _⟩
        refine ⟨hfirst, ?_⟩
        rw [hnone rfl, entriesAt_nil, ← List.length_eq_zero_iff, flattenMap_length, hnone rfl,
          List.length_nil]

/-- So does flattening a list. -/
theorem flattenList_eq_iff (path : Bytes) (idx : ℕ) (items : List QVariant) :
    (flattenList path idx items).1 = entriesAt path (leavesList idx items) ↔
      LeavesFirstList idx items := by
  cases items with
  | nil => simp [flattenList, leavesList, LeavesFirstList]
  | cons v rest =>
    simp only [flattenList, leavesList, entriesAt_below, listPart, LeavesFirstList]
    rw [append_eq_iff (by simp [flatten_length, entriesAt])]
    have hitem : (flatten (path ++ (indexName (idx % 2 ^ 32) ++ [colon])) v).1 =
        entriesAt (path ++ (indexName idx ++ [colon])) (leaves v) ↔
          LeavesFirst v ∧ (idx < 2 ^ 32 ∨ leaves v = []) := by
      by_cases hidx : idx < 2 ^ 32
      · rw [Nat.mod_eq_of_lt hidx, flatten_eq_iff]
        exact (and_iff_left (.inl hidx)).symm
      · by_cases hleaf : leaves v = []
        · have hinner : (flatten (path ++ (indexName (idx % 2 ^ 32) ++ [colon])) v).1 = [] :=
            List.length_eq_zero_iff.mp (by rw [flatten_length, hleaf, List.length_nil])
          rw [hinner, hleaf, entriesAt_nil]
          exact iff_of_true rfl ⟨.of_leaves_nil hleaf, .inr rfl⟩
        · apply iff_of_false (flatten_ne_of_wrapped (by omega) hleaf)
          rintro ⟨_, hlt | hnil⟩
          · exact hidx hlt
          · exact hleaf hnil
    rw [hitem, and_assoc]
    cases hv : v.isContainer with
    | false =>
      rw [leave_leaf path _ hv, flattenList_eq_iff path (idx + 1) rest]
      simp
    | true =>
      obtain ⟨g, hg⟩ := leave_container path (indexName (idx % 2 ^ 32)) hv
      rw [hg]
      refine and_congr_right fun _ => and_congr_right fun _ => ?_
      constructor
      · intro heq
        have hnone : leavesList (idx + 1) rest = [] := by
          by_contra hrest
          exact flattenList_ne_of_unspellable (unspellable_take idx g) hrest heq
        exact ⟨fun _ => hnone, .of_leaves_nil hnone⟩
      · rintro ⟨hnone, _⟩
        rw [hnone rfl, entriesAt_nil, ← List.length_eq_zero_iff, flattenList_length, hnone rfl,
          List.length_nil]

end

/-- **`Flatten` is exact on a tree if and only if the tree visits its leaves first.** One entry
per leaf in traversal order, its key the join of the components, and nothing else. -/
theorem Flatten_eq_leafEntries_iff (v : QVariant) : Flatten v = leafEntries v ↔ LeavesFirst v := by
  have hentries : leafEntries v = entriesAt [] (leaves v) := by
    simp only [leafEntries, entriesAt, keyAt_eq_intercalate]
  rw [hentries, Flatten]
  exact flatten_eq_iff [] v

/-- The map `{a: {b: true}, c: false}` gets the key `ac` where `c` is intended. -/
theorem Flatten_nested_then_scalar :
    Flatten (.map [([97], .map [([98], .leaf (.bool true))]), ([99], .leaf (.bool false))]) =
        [([97, 58, 98], .leaf (.bool true)), ([97, 99], .leaf (.bool false))] ∧
      Flatten (.map [([97], .map [([98], .leaf (.bool true))]), ([99], .leaf (.bool false))]) ≠
        leafEntries
          (.map [([97], .map [([98], .leaf (.bool true))]), ([99], .leaf (.bool false))]) := by
  decide

end Radapter
