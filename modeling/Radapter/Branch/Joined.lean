import Radapter.Branch.Pair

/-!
# Reading and writing at a joined key

Reading at a joined key follows the parts of the first key and then those of the second, so it is
reading twice, as long as there is no scalar where the first reading ends: `get` refuses it, and
the walk along the joined key must not index it. Writing into a new table nests in the same way.
-/

namespace Radapter.Branch

open Library Lua Lazy

variable {fl : Floats} {methods : Methods} {s : Session} {sep a b : Bytes}

/-! ## Reading at a joined key -/

/-- The walk of a table along joined keys. -/
theorem getLoop_append {v : LuaValue} {keys : List LuaKey} (h : AllTables v keys)
    (more : List LuaKey) :
    ∃ found, getLoop v keys = some found ∧ (found = .nil ∨ found.isTable = true) ∧
      (more ≠ [] → getLoop v (keys ++ more) =
        if found.isNil then some .nil else getLoop found more) := by
  induction keys generalizing v with
  | nil =>
    obtain ⟨fields, rfl⟩ := LuaValue.exists_of_isTable h
    exact ⟨_, rfl, .inr rfl, fun _ => rfl⟩
  | cons k rest ih =>
    obtain ⟨hv, hrest⟩ := h
    obtain ⟨fields, rfl⟩ := LuaValue.exists_of_isTable hv
    by_cases hnil : (rawget fields k).isNil = true
    · refine ⟨.nil, ?_, .inl rfl, fun _ => ?_⟩
      · rw [getLoop, if_pos hnil]
      · rw [List.cons_append, getLoop, if_pos hnil]
        rfl
    · have hbelow : AllTables (rawget fields k) rest :=
        hrest.resolve_left (fun h => hnil (LuaValue.isNil_iff.mpr h))
      obtain ⟨found, hfound, hkind, hmore⟩ := ih hbelow
      refine ⟨found, ?_, hkind, fun hne => ?_⟩
      · rw [getLoop, if_neg hnil, hfound]
      · rw [List.cons_append, getLoop, if_neg hnil, hmore hne]

/-- The walk of a view along joined keys. -/
theorem getPathLoop_append {w : View} {keys : List LuaKey} (h : AllViews fl w keys)
    (more : List LuaKey) :
    (∃ below, getPathLoop fl w keys = .view below ∧
        getPathLoop fl w (keys ++ more) = getPathLoop fl below more) ∨
      getPathLoop fl w keys = .value .nil ∧ getPathLoop fl w (keys ++ more) = .value .nil := by
  induction keys generalizing w with
  | nil => exact .inl ⟨w, rfl, rfl⟩
  | cons k rest ih =>
    rw [AllViews] at h
    rw [List.cons_append, getPathLoop, getPathLoop]
    cases hk : PushIndexed fl w k with
    | view below =>
      simp only [hk] at h
      exact ih h
    | value v =>
      simp only [hk] at h
      subst h
      right
      simp

/-- The parts of a path. -/
theorem viewKeys_ne_nil (sep path : Bytes) : viewKeys sep path ≠ [] := by
  have hparts : partsOf sep path ≠ [] := by
    rw [partsOf]
    cases path.length with
    | zero => exact List.cons_ne_nil path []
    | succ n =>
      rw [cutLoop]
      split <;> simp
  simpa [viewKeys] using hparts

/-- A key that can be given to a branch: it is not empty and does not start with the separator. -/
structure Key (sep key : Bytes) : Prop where
  ne_nil : key ≠ []
  start : ¬ sep <+: key

namespace Key

/-- A key of a branch leads into the message. -/
theorem not_whole (h : Key sep a) : ¬ (a = [] ∨ a = sep) := by
  rintro (h' | rfl)
  · exact h.ne_nil h'
  · exact h.start (List.prefix_refl a)

/-- It leads along the same keys in a table as in a view. -/
theorem tableKeys_eq (h : Key sep a) : tableKeys sep a = viewKeys sep a := by
  rw [tableKeys, if_neg h.start]

/-- Two keys with the separator between them are one. -/
theorem join (hsep : OneCharacter sep) (ha : Key sep a) (b : Bytes) :
    Key sep (a ++ (sep ++ b)) where
  ne_nil := by simp [ha.ne_nil]
  start h := ha.start (hsep.starts_of_append ha.ne_nil h)

end Key

/-- Reading a table at a joined key. -/
theorem Get_join (hsep : OneCharacter sep) (ha : Key sep a) (hb : Key sep b) {v : LuaValue}
    (hv : AllTables v (viewKeys sep a)) :
    ∃ found, Get sep a v = some found ∧ (found = .nil ∨ found.isTable = true) ∧
      Get sep (a ++ (sep ++ b)) v = if found.isNil then some .nil else Get sep b found := by
  obtain ⟨found, hfound, hkind, hmore⟩ := getLoop_append hv (viewKeys sep b)
  refine ⟨found, ?_, hkind, ?_⟩
  · rw [Get, if_neg ha.not_whole, ha.tableKeys_eq, hfound]
  · rw [Get, if_neg (ha.join hsep b).not_whole, (ha.join hsep b).tableKeys_eq, viewKeys_join hsep,
      hmore (viewKeys_ne_nil sep b), Get, if_neg hb.not_whole, hb.tableKeys_eq]

/-- What `get` of a table is. -/
theorem get_table (hsep : OneCharacter sep) {v : LuaValue} (hv : v.isTable = true) (key : Bytes) :
    get fl methods s (.value v) key sep =
      (Get sep key v).elim .undefined (fun found => .shown (.value found)) := by
  obtain ⟨fields, rfl⟩ := LuaValue.exists_of_isTable hv
  rw [get, if_neg hsep.ne_nil]
  cases Get sep key (.table fields) <;> rfl

section Views

variable {w : View} {table : LuaValue}

/-- What `get` of a view is while the message is retained. -/
theorem get_retained (hsep : OneCharacter sep) (hs : s.table = none) (key : Bytes) :
    get fl methods s (.view w) key sep = .shown (GetPath fl sep key w) := by
  simp only [get, Session.getThrough, if_neg hsep.ne_nil, hs]

/-- What `get` of a view is when it leads to a table of the message. -/
theorem get_resolved (hsep : OneCharacter sep) (hs : s.table = some table) {fields : Fields}
    (hres : resolve methods table w.path = some (.table fields)) (key : Bytes) :
    get fl methods s (.view w) key sep =
      (Get sep key (.table fields)).elim .undefined (fun found => .shown (.value found)) := by
  simp only [get, Session.getThrough, if_neg hsep.ne_nil, hs, hres]
  cases Get sep key (.table fields) <;> rfl

/-- `get` of a view that leads to no table raises an error. -/
theorem get_unresolved (hsep : OneCharacter sep) (hs : s.table = some table)
    (hres : ∀ fields, resolve methods table w.path ≠ some (.table fields)) (key : Bytes) :
    get fl methods s (.view w) key sep = .raised := by
  simp only [get, Session.getThrough, if_neg hsep.ne_nil, hs]

end Views

/-- Reading a message at a joined key is reading it at the first key and then, if there is
something, what is there at the second. -/
theorem get_join (hsep : OneCharacter sep) (ha : Key sep a) (hb : Key sep b) {msg : Shown}
    (hmsg : Unobstructed fl methods s (viewKeys sep a) msg) :
    (∃ inner, get fl methods s msg a sep = .shown inner ∧
      get fl methods s msg (a ++ (sep ++ b)) sep =
        if (stored inner).isNil then .shown (.value .nil) else get fl methods s inner b sep) ∨
      get fl methods s msg a sep = .raised ∧
        get fl methods s msg (a ++ (sep ++ b)) sep = .raised := by
  -- a table, or what a view of a materialized message leads to
  have htable : ∀ v : LuaValue, AllTables v (viewKeys sep a) → ∃ found,
      Get sep a v = some found ∧
      (Get sep (a ++ (sep ++ b)) v).elim Outcome.undefined (fun x => .shown (.value x)) =
        if found.isNil then .shown (.value .nil) else get fl methods s (.value found) b sep := by
    intro v hv
    obtain ⟨found, hfound, hkind, hjoin⟩ := Get_join hsep ha hb hv
    refine ⟨found, hfound, ?_⟩
    rw [hjoin]
    rcases hkind with rfl | hkind
    · rfl
    · have hnil : found.isNil = false := by cases found <;> first | rfl | cases hkind
      rw [hnil, if_neg Bool.false_ne_true, if_neg Bool.false_ne_true, get_table hsep hkind]
  cases msg with
  | value v =>
    have hv : v.isTable = true := by
      cases hkeys : viewKeys sep a with
      | nil => exact absurd hkeys (viewKeys_ne_nil sep a)
      | cons k rest =>
        rw [Unobstructed, hkeys] at hmsg
        exact hmsg.1
    obtain ⟨found, hfound, hjoin⟩ := htable v hmsg
    exact .inl ⟨.value found, by rw [get_table hsep hv, hfound]; rfl,
      by rw [get_table hsep hv]; exact hjoin⟩
  | view w =>
    rw [Unobstructed] at hmsg
    cases hs : s.table with
    | none =>
      simp only [hs] at hmsg
      left
      simp only [get_retained hsep hs, GetPath, if_neg ha.not_whole,
        if_neg (ha.join hsep b).not_whole, viewKeys_join hsep]
      rcases getPathLoop_append hmsg (viewKeys sep b) with ⟨below, hbelow, hjoin⟩ | ⟨hnil, hjoin⟩
      · refine ⟨.view below, by rw [hbelow], ?_⟩
        rw [get_retained hsep hs, GetPath, if_neg hb.not_whole, hjoin]
        rfl
      · exact ⟨.value .nil, by rw [hnil], by rw [hjoin]; rfl⟩
    | some table =>
      simp only [hs] at hmsg
      by_cases hres : ∃ fields, resolve methods table w.path = some (.table fields)
      · obtain ⟨fields, hres⟩ := hres
        simp only [hres] at hmsg
        obtain ⟨found, hfound, hjoin⟩ := htable _ hmsg
        refine .inl ⟨.value found, ?_, ?_⟩
        · rw [get_resolved hsep hs hres, hfound]
          rfl
        · rw [get_resolved hsep hs hres]
          exact hjoin
      · have hnone := not_exists.mp hres
        exact .inr ⟨get_unresolved hsep hs hnone a, get_unresolved hsep hs hnone _⟩

/-! ## Writing at a joined key -/

/-- A new table gets a new table for each key but the last. -/
theorem setLoop_new (x : LuaValue) (k : LuaKey) {rest : List LuaKey} (hrest : rest ≠ []) :
    setLoop x (k :: rest) [] = rawset [] k (.table (setLoop x rest [])) := by
  obtain ⟨next, rest, rfl⟩ := List.exists_cons_of_ne_nil hrest
  rfl

/-- Writing into a new table along joined keys. -/
theorem setLoop_append (x : LuaValue) {keys more : List LuaKey} (hkeys : keys ≠ [])
    (hmore : more ≠ []) :
    setLoop x (keys ++ more) [] = setLoop (.table (setLoop x more [])) keys [] := by
  induction keys with
  | nil => exact absurd rfl hkeys
  | cons k rest ih =>
    rw [List.cons_append, setLoop_new x k (by simp [hmore])]
    by_cases hrest : rest = []
    · rw [hrest]
      rfl
    · rw [ih hrest, setLoop_new _ k hrest]

/-- A message put under the second key and then under the first stands under the joined key. -/
theorem setNew_join (hsep : OneCharacter sep) (ha : Key sep a) (hb : Key sep b) (msg : Shown) :
    setNew (a ++ (sep ++ b)) msg sep = setNew a (setNew b msg sep) sep := by
  simp only [setNew, if_neg ha.not_whole, if_neg hb.not_whole, if_neg (ha.join hsep b).not_whole,
    (ha.join hsep b).tableKeys_eq, ha.tableKeys_eq, hb.tableKeys_eq, viewKeys_join hsep, stored]
  rw [setLoop_append _ (viewKeys_ne_nil sep a) (viewKeys_ne_nil sep b)]

end Radapter.Branch
