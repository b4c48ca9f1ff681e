import Radapter.Branch.Joined
import Radapter.Lazy.Follow

/-!
# The laws of `get` and `set`

On tables that are trees, `get` reads what `set` has written, a second `set` at the same path makes
up for the first one, and paths that part ways do not disturb each other. What `wrap` puts under a
key is what `unwrap` reads there, and `filter` keeps one value and nothing else.
-/

namespace Radapter.Branch

open Library Lua Lazy

/-- `set` of a table. -/
def set (t : Fields) (key : Bytes) (x : LuaValue) (sep : Bytes) : Fields :=
  setLoop x (pathKeys sep key) t

/-- The function that `wrap` returns. -/
def wrap (key sep : Bytes) (msg : Shown) : Shown := setNew key msg sep

section Filters

variable (fl : Floats) (methods : Methods) (s : Session)

/-- The function that `unwrap` returns. -/
def unwrap (key sep : Bytes) (msg : Shown) : Outcome := get fl methods s msg key sep

/-- The function that `filter` returns. -/
def filter (key sep : Bytes) (msg : Shown) : Outcome :=
  if key = [] then .shown msg
  else
    match get fl methods s msg key sep with
    | .shown value =>
        if (stored value).isNil then .shown (.value .nil) else .shown (setNew key value sep)
    | o => o

end Filters

/-! ## Comparing tables and paths -/

/-- What a value is, apart from the fields of a table. -/
def outside : LuaValue → LuaValue
  | .table _ => .table []
  | v => v

/-- The same tree: along every path both hold the same, up to the order of fields. -/
def Same (a b : LuaValue) : Prop :=
  ∀ path, outside (tables.readAt a path) = outside (tables.readAt b path)

/-- The value is all that the table holds: above it are tables, and all else is missing. -/
def HoldsOnly (t : LuaValue) (keys : List LuaKey) (v : LuaValue) : Prop :=
  tables.readAt t keys = v ∧
    (∀ above, above <+: keys → above ≠ keys → (tables.readAt t above).isTable = true) ∧
    ∀ other, Diverge other keys → tables.readAt t other = .nil

/-- Apart from their fields all tables are alike. -/
theorem outside_of_isTable {a b : LuaValue} (ha : a.isTable = true) (hb : b.isTable = true) :
    outside a = outside b := by
  obtain ⟨fields, rfl⟩ := LuaValue.exists_of_isTable ha
  obtain ⟨other, rfl⟩ := LuaValue.exists_of_isTable hb
  rfl

/-- The keys of a path. -/
theorem pathKeys_ne_nil {sep path : Bytes} (hpath : path ≠ []) (hne : path ≠ sep) :
    pathKeys sep path ≠ [] := by
  rw [pathKeys, if_neg (not_or.mpr ⟨hpath, hne⟩), tableKeys]
  split
  · exact viewKeys_ne_nil sep _
  · exact viewKeys_ne_nil sep _

/-! ## Reading along a path that was written -/

/-- Where the levels above a place are tables, the walk to it meets no scalar. -/
theorem meetsNoScalar_of_tables {t : LuaValue} {keys : List LuaKey}
    (h : ∀ above, above <+: keys → above ≠ keys → (tables.readAt t above).isTable = true) :
    MeetsNoScalar t keys := by
  induction keys generalizing t with
  | nil => trivial
  | cons k rest ih =>
    refine ⟨h [] List.nil_prefix (by simp), Or.inr (ih ?_)⟩
    intro above habove hne
    apply h (k :: above) (List.cons_prefix_cons.mpr ⟨rfl, habove⟩)
    rintro heq
    exact hne (List.cons.inj heq).2

/-- A write does not put a scalar in the way of a path that parts ways with its own. -/
theorem meetsNoScalar_writeAt (x : LuaValue) {t : LuaValue} {place keys : List LuaKey}
    (hdiverge : Diverge keys place) (h : t = .nil ∨ MeetsNoScalar t keys) :
    MeetsNoScalar (tables.writeAt x place t) keys := by
  induction keys generalizing t place with
  | nil => trivial
  | cons k rest ih =>
    cases place with
    | nil => exact absurd List.nil_prefix hdiverge.symm.not_prefix
    | cons j place =>
      have hfield : tables.get t k = .nil ∨ MeetsNoScalar (tables.get t k) rest := by
        rcases h with rfl | ⟨-, hrest⟩
        · exact Or.inl (tables_get_of_not_table rfl k)
        · exact hrest
      refine ⟨rfl, ?_⟩
      rw [Store.writeAt]
      by_cases hk : k = j
      · subst hk
        rw [tables.get_set_self]
        exact Or.inr (ih hdiverge.of_cons hfield)
      · rw [tables.get_set_ne _ _ hk]
        exact hfield

section Laws

variable {sep p : Bytes}

/-- `set` writes along the keys of its path. -/
theorem table_set (hp : p ≠ []) (hne : p ≠ sep) (t : Fields) (v : LuaValue) :
    .table (set t p v sep) = tables.writeAt v (pathKeys sep p) (.table t) :=
  setLoop_eq (pathKeys_ne_nil hp hne) t

/-- What was set is read. -/
theorem get_set (hp : p ≠ []) (hne : p ≠ sep) (t : Fields) (v : LuaValue) :
    Get sep p (.table (set t p v sep)) = some v := by
  obtain ⟨hat, -, habove⟩ := changed_writeAt (.table t) (pathKeys sep p) v
  rw [← table_set hp hne] at hat habove
  have hread := hat []
  rw [List.append_nil] at hread
  rw [Get_eq_readAt (meetsNoScalar_of_tables habove), hread]
  rfl

/-- The second of two writes at a place makes up for the first one. -/
theorem set_set (hp : p ≠ []) (hne : p ≠ sep) (t : Fields) (v w : LuaValue) :
    Same (.table (set (set t p v sep) p w sep)) (.table (set t p w sep)) := by
  rw [table_set hp hne, table_set hp hne, table_set hp hne]
  generalize pathKeys sep p = keys
  obtain ⟨hat, hapart, habove⟩ :=
    changed_writeAt (tables.writeAt v keys (.table t)) keys w
  obtain ⟨hat', hapart', habove'⟩ := changed_writeAt (.table t) keys w
  intro path
  by_cases hbelow : keys <+: path
  · obtain ⟨rest, rfl⟩ := hbelow
    rw [hat, hat']
  · by_cases hpath : path <+: keys
    · have hne : path ≠ keys := by
        rintro rfl
        exact hbelow List.prefix_rfl
      exact outside_of_isTable (habove path hpath hne) (habove' path hpath hne)
    · rw [hapart path hbelow hpath, hapart' path hbelow hpath,
        tables.readAt_writeAt_apart v _ hbelow hpath]

/-- A write changes nothing on the paths that part ways with its own. -/
theorem get_set_apart (hp : p ≠ []) (hne : p ≠ sep) {t : Fields} {q : Bytes}
    (hdiverge : Diverge (pathKeys sep q) (pathKeys sep p))
    (hq : MeetsNoScalar (.table t) (pathKeys sep q)) (v : LuaValue) :
    Get sep q (.table (set t p v sep)) = Get sep q (.table t) := by
  have hafter := meetsNoScalar_writeAt v hdiverge (Or.inr hq)
  rw [← table_set hp hne] at hafter
  rw [Get_eq_readAt hafter, Get_eq_readAt hq, table_set hp hne,
    tables.readAt_writeAt_apart v _ hdiverge.symm.not_prefix hdiverge.not_prefix]

/-- A new table with one value holds nothing else. -/
theorem holdsOnly_setNew (hp : p ≠ []) (hne : p ≠ sep) (v : LuaValue) :
    HoldsOnly (.table (set [] p v sep)) (pathKeys sep p) v := by
  obtain ⟨hat, hapart, habove⟩ := changed_writeAt (.table []) (pathKeys sep p) v
  rw [table_set hp hne]
  refine ⟨?_, habove, ?_⟩
  · have hread := hat []
    rwa [List.append_nil] at hread
  · intro other hother
    rw [hapart other hother.symm.not_prefix hother.not_prefix]
    have hother : other ≠ [] := by
      rintro rfl
      exact hother.not_prefix List.nil_prefix
    obtain ⟨k, rest, rfl⟩ := List.exists_cons_of_ne_nil hother
    rw [Store.readAt_cons]
    exact readAt_nil_value rest

variable {fl : Floats} {methods : Methods} {s : Session}

/-- `unwrap` reads what `wrap` has put under its key. -/
theorem unwrap_wrap (hsep : sep ≠ []) (hp : p ≠ []) (hne : p ≠ sep) (m : Shown) :
    unwrap fl methods s p sep (wrap p sep m) = .shown (.value (stored m)) := by
  have hget := get_set hp hne [] (stored m)
  have hwrap : wrap p sep m = .value (.table (set [] p (stored m) sep)) := rfl
  rw [hwrap, unwrap, get, if_neg hsep, hget]

/-- `filter` keeps the value at its path and nothing else. -/
theorem filter_holdsOnly (hp : p ≠ []) (hne : p ≠ sep) {m value : Shown}
    (hget : get fl methods s m p sep = .shown value) (hvalue : stored value ≠ .nil) :
    ∃ t, filter fl methods s p sep m = .shown (.value (.table t)) ∧
      Get sep p (.table t) = some (stored value) ∧
      HoldsOnly (.table t) (pathKeys sep p) (stored value) := by
  refine ⟨set [] p (stored value) sep, ?_, get_set hp hne [] _, holdsOnly_setNew hp hne _⟩
  rw [filter, if_neg hp, hget]
  simp only [if_neg (fun h => hvalue (LuaValue.isNil_iff.mp h))]
  rfl

/-- The laws of `get` and `set` on tables that are trees, and what they say about `wrap`, `unwrap`
and `filter`. -/
theorem get_set_laws (fl : Floats) (methods : Methods) (s : Session) (hsep : sep ≠ [])
    (hp : p ≠ []) (hne : p ≠ sep) :
    (∀ t v, Get sep p (.table (set t p v sep)) = some v) ∧
      (∀ t v w, Same (.table (set (set t p v sep) p w sep)) (.table (set t p w sep))) ∧
      (∀ t q, Diverge (pathKeys sep q) (pathKeys sep p) →
        MeetsNoScalar (.table t) (pathKeys sep q) → ∃ x, Get sep q (.table t) = some x ∧
          ∀ v, Get sep q (.table (set t p v sep)) = some x) ∧
      (∀ m, unwrap fl methods s p sep (wrap p sep m) = .shown (.value (stored m))) ∧
      ∀ m value, get fl methods s m p sep = .shown value → stored value ≠ .nil →
        ∃ t, filter fl methods s p sep m = .shown (.value (.table t)) ∧
          Get sep p (.table t) = some (stored value) ∧
          HoldsOnly (.table t) (pathKeys sep p) (stored value) := by
  refine ⟨get_set hp hne, set_set hp hne, ?_, unwrap_wrap hsep hp hne, ?_⟩
  · intro t q hdiverge hq
    refine ⟨_, Get_eq_readAt hq, fun v => ?_⟩
    rw [get_set_apart hp hne hdiverge hq v, Get_eq_readAt hq]
  · intro m value hget hvalue
    exact filter_holdsOnly hp hne hget hvalue

end Laws

/-- The laws at the path `a:b`; the table holds a number under `a`, which is replaced. -/
theorem get_set_laws_inner :
    Get [58] [97, 58, 98] (.table (set [(.string [97], .integer 1), (.string [99], .boolean true)]
        [97, 58, 98] (.integer 2) [58])) = some (.integer 2) ∧
      Get [58] [99] (.table (set [(.string [97], .integer 1), (.string [99], .boolean true)]
        [97, 58, 98] (.integer 2) [58])) = some (.boolean true) ∧
      set [(.string [97], .integer 1), (.string [99], .boolean true)] [97, 58, 98] (.integer 2)
          [58] =
        [(.string [97], .table [(.string [98], .integer 2)]), (.string [99], .boolean true)] := by
  have hlaws := @get_set_laws [58] [97, 58, 98] .unused .unused (PushRoot .invalid) (by decide)
    (by decide) (by decide)
  obtain ⟨hget, -, hapart, -⟩ := hlaws
  refine ⟨hget _ _, ?_, rfl⟩
  obtain ⟨x, hx, hall⟩ := hapart [(.string [97], .integer 1), (.string [99], .boolean true)] [99]
    ⟨0, .string [99], .string [97], rfl, rfl, by decide⟩ ⟨rfl, Or.inr trivial⟩
  obtain rfl : x = .boolean true := (Option.some.inj hx).symm
  exact hall _

end Radapter.Branch
