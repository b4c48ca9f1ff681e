import Radapter.Lazy.Follow
import Radapter.Lazy.Pairs

/-!
# When iterating over a view agrees with the table

For a container whose keys are read back, the view and its table agree under `pairs`, `ipairs` and
`#` exactly when no entry or item is null: a null is yielded with its key by the view and missing in
the table.
-/

namespace Radapter.Lazy

open Library Lua

variable (fl : Floats)

/-! ## Positions in a message -/

/-- Below a faithful view, a path of keys that finds what it names leads to a faithful view. -/
theorem Faithful.childAlong (methods : Methods) {message v : QVariant} {w : View}
    (hw : Faithful fl methods message w) {path : Path}
    (hpath : Lazy.childAlong w.value path = some v) (hv : v.isContainer = true)
    (hfinds : FindsAlong w.value path) : Faithful fl methods message ⟨w.path ++ path, v⟩ := by
  induction path generalizing w with
  | nil =>
    obtain rfl : w.value = v := Option.some.inj hpath
    rw [List.append_nil]
    exact hw
  | cons k path ih =>
    rw [childAlong_cons] at hpath
    obtain ⟨child, hchild, hrest⟩ := Option.bind_eq_some_iff.mp hpath
    have hcontainer := isContainer_of_childAlong hrest hv
    have hindex : PushIndexed fl w k = .view ⟨w.path ++ [k], child⟩ := by
      simp only [PushIndexed, hchild, PushChildView]
      rw [if_pos hcontainer]
    have hbelow := ih (hw.index fl methods hfinds.1 hindex) hrest (hfinds.2 child hchild)
    rw [List.append_assoc] at hbelow
    exact hbelow

/-- A path of keys that finds what it names leads to a faithful view of the message. -/
theorem faithful_childAlong (methods : Methods) {message v : QVariant}
    (hmessage : message.isContainer = true) (hsorted : message.Ascending) {path : Path}
    (hpath : childAlong message path = some v) (hv : v.isContainer = true)
    (hfinds : FindsAlong message path) : Faithful fl methods message ⟨path, v⟩ := by
  have hroot : Faithful fl methods message ⟨[], message⟩ := ⟨hmessage, hsorted, rfl⟩
  exact hroot.childAlong fl methods hpath hv hfinds

/-! ## `pairs` -/

/-- What `pairs` yields for a container whose keys are read back: the children in order. -/
theorem pairsLoop_eq {w : View} (hw : w.value.isContainer = true) (hsorted : w.value.Ascending)
    (hread : KeysRead w.value) : ∃ fuel yields, pairsLoop fl w fuel none = some yields ∧
      yields.map (fun y => y.2.plain fl) = (children w.value).map (Push fl) := by
  obtain ⟨path, v⟩ := w
  cases v with
  | leaf s => cases hw
  | map entries =>
    rw [QVariant.Ascending] at hsorted
    refine ⟨entries.length + 1, _,
      @pairsLoop_map fl path [] entries hsorted.1 hread _ (by omega), ?_⟩
    simp only [List.map_map, children]
    apply List.map_congr_left
    intro e _
    exact plain_PushChildView fl _ _ _
  | list items =>
    refine ⟨items.length + 1, _,
      @pairsLoop_list fl path items 0 (by omega) none rfl _ (by omega), ?_⟩
    rw [List.drop_zero, List.map_map, children]
    have hfst : (items.zipIdx 1).map Prod.fst = items := List.zipIdx_map_fst 1 items
    conv_rhs => rw [← hfst, List.map_map]
    apply List.map_congr_left
    intro e _
    exact plain_PushChildView fl _ _ _

/-- A null child is yielded as `nil`. -/
theorem not_pairsAgree {w : View} (hw : w.value.isContainer = true) (hsorted : w.value.Ascending)
    (hread : KeysRead w.value) (hnull : .invalid ∈ children w.value) (fields : Fields) :
    ¬ PairsAgree fl w fields := by
  rintro ⟨fuel, yields, hloop, -, hvalues⟩
  obtain ⟨fuel', yields', hloop', hmap⟩ := pairsLoop_eq fl hw hsorted hread
  have hmore := pairsLoop_mono fl (Nat.le_max_left fuel fuel') hloop
  rw [pairsLoop_mono fl (Nat.le_max_right fuel fuel') hloop'] at hmore
  obtain rfl := Option.some.inj hmore
  have hnil : Push fl .invalid ∈ yields'.map (fun y => y.2.plain fl) := by
    rw [hmap]
    exact List.mem_map_of_mem hnull
  obtain ⟨y, hy, heq⟩ := List.mem_map.mp hnil
  exact hvalues y hy heq

/-- A map without nulls has its entries as fields. -/
theorem rawget_pushMap_ne_nil {entries : List (QString × QVariant)}
    (hsorted : (entries.map Prod.fst).Pairwise (· < ·)) (hread : KeysRead (.map entries))
    (hnull : ∀ e ∈ entries, e.2 ≠ .invalid) (k : LuaKey) :
    rawget (pushMap fl [] entries) k ≠ .nil ↔
      ∃ e ∈ entries, (.string (toStdString e.1) : LuaKey) = k := by
  constructor
  · intro hne
    by_contra hnone
    apply hne
    rw [rawget_pushMap_of_not_mem]
    · rfl
    · intro e he heq
      exact hnone ⟨e, he, heq⟩
  · rintro ⟨e, he, rfl⟩
    rw [rawget_pushMap fl he, ne_eq, push_eq_nil_iff]
    · exact hnull e he
    · intro d hd heq
      apply entry_unique hsorted hd he
      rw [← hread d hd, heq, hread e he]

/-- A list without nulls has its items as fields. -/
theorem rawget_pushList_ne_nil {items : List QVariant} (hnull : ∀ v ∈ items, v ≠ .invalid)
    (k : LuaKey) : rawget (pushList fl [] 1 items) k ≠ .nil ↔
      ∃ j < items.length, (.integer ((1 + j : ℕ) : ℤ) : LuaKey) = k := by
  constructor
  · intro hne
    by_contra hnone
    apply hne
    rw [rawget_pushList_of_not_index]
    · rfl
    · intro j hj heq
      exact hnone ⟨j, hj, heq⟩
  · rintro ⟨j, hj, rfl⟩
    rw [rawget_pushList fl (List.getElem?_eq_getElem hj), ne_eq, push_eq_nil_iff]
    exact hnull _ (List.getElem_mem hj)

/-- `pairs` agrees on a container without null children. -/
theorem pairsAgree_of_no_null {w : View} (hw : w.value.isContainer = true)
    (hsorted : w.value.Ascending) (hread : KeysRead w.value)
    (hnull : ∀ c ∈ children w.value, c ≠ .invalid) {fields : Fields}
    (hfields : Push fl w.value = .table fields) : PairsAgree fl w fields := by
  obtain ⟨path, v⟩ := w
  cases v with
  | leaf s => cases hw
  | map entries =>
    rw [QVariant.Ascending] at hsorted
    obtain rfl : pushMap fl [] entries = fields := LuaValue.table.inj hfields
    have hentries : ∀ e ∈ entries, e.2 ≠ .invalid :=
      fun e he => hnull e.2 (List.mem_map_of_mem he)
    refine ⟨entries.length + 1, _, @pairsLoop_map fl path [] entries hsorted.1 hread _ (by omega),
      ?_, ?_⟩
    · intro k
      rw [rawget_pushMap_ne_nil fl hsorted.1 hread hentries]
      simp
    · intro y hy
      obtain ⟨e, he, rfl⟩ := List.mem_map.mp hy
      rw [plain_PushChildView, ne_eq, push_eq_nil_iff]
      exact hentries e he
  | list items =>
    obtain rfl : pushList fl [] 1 items = fields := LuaValue.table.inj hfields
    have hitems : ∀ v ∈ items, v ≠ .invalid := hnull
    refine ⟨items.length + 1, _, @pairsLoop_list fl path items 0 (by omega) none rfl _ (by omega),
      ?_, ?_⟩
    · intro k
      rw [rawget_pushList_ne_nil fl hitems, List.drop_zero, List.map_map, List.mem_map]
      constructor
      · rintro ⟨e, he, rfl⟩
        obtain ⟨hle, hlt, -⟩ := List.mem_zipIdx he
        refine ⟨e.2 - 1, by omega, ?_⟩
        rw [Function.comp_apply, LuaKey.integer.injEq]
        omega
      · rintro ⟨j, hj, rfl⟩
        refine ⟨(items[j], j + 1), ?_, ?_⟩
        · rw [List.mk_mem_zipIdx_iff_le_and_getElem?_sub]
          exact ⟨by omega, by simp⟩
        · rw [Function.comp_apply, LuaKey.integer.injEq]
          omega
    · intro y hy
      obtain ⟨e, he, rfl⟩ := List.mem_map.mp hy
      rw [plain_PushChildView, ne_eq, push_eq_nil_iff]
      exact hnull e.1 (List.mem_of_mem_drop (List.fst_mem_of_mem_zipIdx he))

/-! ## `ipairs` and `#` -/

/-- A loop over what is `nil` from some index on ends. -/
theorem ipairsLoop_ends {read : ℕ → LuaValue} {n : ℕ} (h : ∀ i, n < i → read i = .nil) (i : ℕ) :
    ∃ fuel sequence, ipairsLoop read fuel i = some sequence := by
  obtain ⟨m, hm⟩ : ∃ m, n + 1 - i = m := ⟨_, rfl⟩
  induction m generalizing i with
  | zero =>
    refine ⟨1, [], ?_⟩
    rw [ipairsLoop, h i (by omega)]
    rfl
  | succ m ih =>
    obtain ⟨fuel, sequence, hloop⟩ := ih (i + 1) (by omega)
    by_cases hnil : read i = .nil
    · refine ⟨1, [], ?_⟩
      rw [ipairsLoop, hnil]
      rfl
    · refine ⟨fuel + 1, (i, read i) :: sequence, ?_⟩
      rw [ipairsLoop, if_neg (by simpa using hnil), hloop]
      rfl

/-- An index beyond the children reads as `nil`. -/
theorem rawget_push_beyond {v : QVariant} {fields : Fields} (h : Push fl v = .table fields)
    {i : ℕ} (hi : (children v).length < i) : rawget fields (.integer i) = .nil := by
  cases v with
  | leaf s => cases s <;> cases h
  | map entries =>
    obtain rfl : pushMap fl [] entries = fields := LuaValue.table.inj h
    rw [rawget_pushMap_of_not_mem fl (by simp)]
    rfl
  | list items =>
    obtain rfl : pushList fl [] 1 items = fields := LuaValue.table.inj h
    rw [rawget_pushList_of_not_index]
    · rfl
    · intro j hj
      rw [children] at hi
      rw [ne_eq, LuaKey.integer.injEq]
      omega

/-- `ipairs` agrees on every container. -/
theorem ipairsAgree {w : View} (hw : w.value.isContainer = true) (hsorted : w.value.Ascending)
    {fields : Fields} (hfields : Push fl w.value = .table fields) : IpairsAgree fl w fields := by
  have hread : (fun i : ℕ => (PushIndexed fl w (.integer i)).plain fl) =
      fun i : ℕ => rawget fields (.integer i) := by
    funext i
    have hsame : FindsSame w.value (.integer i) := by
      cases w.value <;> trivial
    have hget := plain_PushIndexed fl .unused hw hsorted hsame
    rw [hfields] at hget
    exact (Option.some.inj hget).symm
  have hbeyond : ∀ i : ℕ, (children w.value).length < i →
      (fun i : ℕ => rawget fields (.integer i)) i = .nil :=
    fun i hi => rawget_push_beyond fl hfields hi
  obtain ⟨fuel, sequence, hloop⟩ := ipairsLoop_ends hbeyond 1
  exact ⟨fuel, sequence, by rw [hread]; exact hloop, hloop⟩

/-- `#` agrees on a list without nulls. -/
theorem lenAgrees_of_no_null {w : View} (hnull : ∀ c ∈ children w.value, c ≠ .invalid)
    {fields : Fields} (hfields : Push fl w.value = .table fields) : LenAgrees w fields := by
  intro items hitems _ n hborder
  obtain ⟨path, v⟩ := w
  obtain rfl : v = .list items := hitems
  obtain rfl : pushList fl [] 1 items = fields := LuaValue.table.inj hfields
  have hfield := fun k => @rawget_pushList_ne_nil fl items hnull k
  obtain ⟨hlast, hnext⟩ := hborder
  have hle : n ≤ items.length := by
    rcases hlast with rfl | hne
    · omega
    · obtain ⟨j, hj, heq⟩ := (hfield _).mp hne
      rw [LuaKey.integer.injEq] at heq
      omega
  have hge : items.length ≤ n := by
    by_contra hlt
    refine (hfield _).mpr ⟨n, by omega, ?_⟩ hnext
    rw [LuaKey.integer.injEq]
    omega
  exact Nat.le_antisymm hle hge

/-- At every container position the view and its table agree under reading exactly when the
container has no null child. -/
theorem readAgrees_iff (methods : Methods) {message v : QVariant}
    (hmessage : message.isContainer = true) (hsorted : message.Ascending) {path : Path}
    (hpath : childAlong message path = some v) (hv : v.isContainer = true)
    (hfinds : FindsAlong message path) (hread : KeysRead v) :
    ReadAgrees fl methods message ⟨path, v⟩ ↔ ∀ c ∈ children v, c ≠ .invalid := by
  obtain ⟨-, hbelow, hresolve⟩ :=
    faithful_childAlong fl methods hmessage hsorted hpath hv hfinds
  constructor
  · rintro ⟨fields, -, hpairs, -⟩ c hc rfl
    exact not_pairsAgree fl (w := ⟨path, v⟩) hv hbelow hread hc fields hpairs
  · intro hnull
    have htable : (Push fl v).isTable = true := by rw [isTable_push, hv]
    obtain ⟨fields, hfields⟩ := LuaValue.exists_of_isTable htable
    refine ⟨fields, by rw [hresolve, hfields], ?_, ?_, ?_⟩
    · exact pairsAgree_of_no_null fl hv hbelow hread hnull hfields
    · exact ipairsAgree fl hv hbelow hfields
    · exact lenAgrees_of_no_null fl hnull hfields

/-- The view of a list in a map. -/
theorem readAgrees_list :
    ReadAgrees .unused .unused (.map [([97], .list [.leaf (.bool true)])])
      ⟨[.string [97]], .list [.leaf (.bool true)]⟩ := by
  have hfinds : FindsAlong (.map [([97], .list [.leaf (.bool true)])]) [.string [97]] := by
    refine ⟨?_, fun _ _ => trivial⟩
    simp only [FindsSame, List.mem_singleton, forall_eq]
    exact iff_of_true (by decide) (by decide)
  have hread : KeysRead (.list [.leaf (.bool true)]) := trivial
  refine (readAgrees_iff .unused .unused rfl ?_ rfl rfl hfinds hread).mpr ?_
  · simp [QVariant.Ascending, QVariant.AscendingMap, QVariant.AscendingList]
  · simp [children, QVariant.invalid]

/-- `pairs` on a view yields a null item that the table does not have. -/
theorem not_readAgrees_null :
    ¬ ReadAgrees .unused .unused (.list [.leaf (.bool true), .invalid])
      ⟨[], .list [.leaf (.bool true), .invalid]⟩ := by
  have hread : KeysRead (.list [.leaf (.bool true), .invalid]) := trivial
  rintro ⟨fields, -, hpairs, -⟩
  refine not_pairsAgree .unused (w := ⟨[], _⟩) rfl ?_ hread ?_ fields hpairs
  · simp [QVariant.Ascending, QVariant.AscendingList, QVariant.invalid]
  · simp [children]

end Radapter.Lazy
