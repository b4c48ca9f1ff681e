import Radapter.Lazy.Session

/-!
# The current message

At every point of a session there is one current value of the message: the table it was pushed as,
or would be. Every view reads it along its own keys, whether it was captured before or after the
message became a table, and a write through a view changes it at one place.
-/

namespace Radapter.Lazy

open Library Lua

variable (fl : Floats) (methods : Methods)

/-! ## What the operations should do -/

/-- The outcome is what Lua reads: the value itself, a view of the place in the message where the
value stands, or an error where Lua raises one. -/
def Shows (message : LuaValue) (o : Outcome) : Option LuaValue → Prop
  | none => o = .raised
  | some v => o = .shown (.value v) ∨
      ∃ w, o = .shown (.view w) ∧ v.isTable = true ∧ resolve methods message w.path = some v

/-- A message is changed exactly at a place: there it holds the value, the levels above are tables,
and nothing else is read differently. -/
def Changed (message : LuaValue) (place : Path) (x after : LuaValue) : Prop :=
  (∀ below, tables.readAt after (place ++ below) = tables.readAt x below) ∧
    (∀ other, ¬ place <+: other → ¬ other <+: place →
      tables.readAt after other = tables.readAt message other) ∧
    ∀ above, above <+: place → above ≠ place → (tables.readAt after above).isTable = true

/-- The keys that a script names with a path. -/
def pathKeys (sep path : Bytes) : List LuaKey :=
  if path = [] ∨ path = sep then [] else tableKeys sep path

/-- The table that a place of the message holds. -/
def tableAt (message : LuaValue) (path : Path) : Option LuaValue :=
  (resolve methods message path).filter LuaValue.isTable

/-- What an operation through the view at `path` does to the current message. -/
def Correct (path : Path) (message : LuaValue) (o : Outcome) (after : LuaValue) : Action → Prop
  | .index _ k =>
      Shows methods message o ((resolve methods message path).bind (gettable methods · k)) ∧
        after = message
  | .get _ along sep =>
      Shows methods message o (if sep = [] then none else
        (tableAt methods message path).map (tables.readAt · (pathKeys sep along))) ∧
        after = message
  | .materialize _ => Shows methods message o (resolve methods message path) ∧ after = message
  | .assign _ k x =>
      if (tableAt methods message path).isSome then
        o = .done ∧ Changed message (path ++ [k]) x after
      else o = .raised ∧ after = message
  | .set _ along x sep =>
      if sep ≠ [] ∧ (tableAt methods message path).isSome then
        o = .shown (.value (tables.readAt after path)) ∧
          if pathKeys sep along = [] then after = message
          else Changed message (path ++ pathKeys sep along) x after
      else o = .raised ∧ after = message

mutual

/-- No view is stored in the value. -/
def ViewFree : LuaValue → Prop
  | .table fields => ViewFreeFields fields
  | .view _ => False
  | _ => True

/-- No view is stored in the fields. -/
def ViewFreeFields : Fields → Prop
  | [] => True
  | (_, v) :: rest => ViewFree v ∧ ViewFreeFields rest

end

/-- The operations in question: no method is looked up, paths that are read have no leading
separator and meet no scalar before their last part, and no view is stored. -/
def Allowed (s : Session) (w : View) : Action → Prop
  | .index _ k => k ≠ materializeKey
  | .get _ path sep => (sep <+: path → path = sep) ∧
      ∀ t ∈ tableAt methods (s.current fl) w.path, MeetsNoScalar t (pathKeys sep path)
  | .assign _ _ x | .set _ _ x _ => ViewFree x
  | .materialize _ => True

/-- As long as the message is no table, a key that is looked up finds an entry exactly when it is
the UTF-8 form of the entry's key. -/
def Finds (s : Session) (w : View) : Action → Prop
  | .index _ k => s.table = none → FindsSame w.value k
  | .get _ path sep => s.table = none → FindsAlong w.value (viewKeys sep path)
  | _ => True

/-- The view can be resolved on the Lua stack, where it is. -/
def HasSlots (s : Session) (w : View) (c : Call) : Prop :=
  s.Resolves c.action → slotsNeeded w.path ≤ c.slots

/-- The condition on a step. -/
def Good (s : Session) (c : Call) : Prop :=
  ∀ w ∈ s.views[c.action.view]?,
    Allowed fl methods s w c.action ∧ Finds s w c.action ∧ HasSlots s w c

/-! ## Walking and changing tables -/

/-- What Lua indexing reaches below a table is what is read there. -/
theorem readAt_of_resolve {v t : LuaValue} {path : Path} (h : resolve methods v path = some t)
    (ht : t.isTable = true) : tables.readAt v path = t ∧ ∀ above, above <+: path →
      (tables.readAt v above).isTable = true := by
  induction path generalizing v with
  | nil =>
    obtain rfl : v = t := Option.some.inj h
    refine ⟨rfl, fun above habove => ?_⟩
    obtain rfl := List.prefix_nil.mp habove
    exact ht
  | cons k path ih =>
    obtain ⟨next, hnext, hrest⟩ := Option.bind_eq_some_iff.mp (show
      (gettable methods v k).bind (fun next => resolve methods next path) = some t from h)
    obtain ⟨hread, habove⟩ := ih hrest
    rcases gettable_cases hnext with ⟨fields, rfl, rfl⟩ | hnot
    · refine ⟨hread, fun above hpre => ?_⟩
      cases above with
      | nil => rfl
      | cons j above =>
        obtain ⟨rfl, hbelow⟩ := List.cons_prefix_cons.mp hpre
        exact habove above hbelow
    · -- the methods of a scalar are no tables, so nothing below them is one
      have htop := habove [] List.nil_prefix
      rw [Store.readAt_nil, hnot] at htop
      cases htop

/-- The loop of `Set` writes along its keys. -/
theorem setLoop_eq {x : LuaValue} {keys : List LuaKey} (hkeys : keys ≠ []) (fields : Fields) :
    .table (setLoop x keys fields) = tables.writeAt x keys (.table fields) := by
  induction keys generalizing fields with
  | nil => exact absurd rfl hkeys
  | cons k rest ih =>
    cases rest with
    | nil => rfl
    | cons j rest =>
      have hbelow : ∀ v : LuaValue, v.isTable = false →
          tables.writeAt x (j :: rest) v = .table (setLoop x (j :: rest) []) := by
        intro v hv
        rw [ih (by simp)]
        cases v with
        | table fields => cases hv
        | _ => rfl
      rw [setLoop, writeAt_table]
      · split
        · next below hget => rw [hget, ← ih (by simp)]
        · next hnot =>
          rw [hbelow]
          rw [Bool.eq_false_iff]
          intro htable
          obtain ⟨below, hget⟩ := LuaValue.exists_of_isTable htable
          exact hnot below hget
      · simp

/-- Above the place of a write there are tables. -/
theorem isTable_writeAt (x : LuaValue) {place above : Path} (v : LuaValue) (h : above <+: place)
    (hne : above ≠ place) : (tables.readAt (tables.writeAt x place v) above).isTable = true := by
  induction place generalizing v above with
  | nil => exact absurd (List.prefix_nil.mp h) hne
  | cons k place ih =>
    cases above with
    | nil => rfl
    | cons j above =>
      obtain ⟨rfl, hbelow⟩ := List.cons_prefix_cons.mp h
      rw [Store.readAt_cons, Store.writeAt, tables.get_set_self]
      apply ih _ hbelow
      rintro rfl
      exact hne rfl

/-- A write changes a message exactly at its place. -/
theorem changed_writeAt (message : LuaValue) (place : Path) (x : LuaValue) :
    Changed message place x (tables.writeAt x place message) := by
  refine ⟨?_, ?_, ?_⟩
  · intro below
    exact tables.readAt_writeAt x message place below
  · intro other h h'
    exact tables.readAt_writeAt_apart x message h h'
  · intro above h hne
    exact isTable_writeAt x message h hne

/-- Writing what a table on the way holds changes nothing. -/
theorem writeAt_readAt {v : LuaValue} {path : Path}
    (h : ∀ above, above <+: path → (tables.readAt v above).isTable = true) :
    tables.writeAt (tables.readAt v path) path v = v := by
  induction path generalizing v with
  | nil => rfl
  | cons k path ih =>
    obtain ⟨fields, rfl⟩ := LuaValue.exists_of_isTable (h [] List.nil_prefix)
    have hbelow := fun above hpre => h (k :: above) (List.cons_prefix_cons.mpr ⟨rfl, hpre⟩)
    have hfield : rawget fields k ≠ .nil := by
      intro hnil
      have hnext := hbelow [] List.nil_prefix
      rw [show tables.readAt (.table fields) [k] = rawget fields k from rfl, hnil] at hnext
      cases hnext
    rw [Store.readAt_cons, Store.writeAt, ih hbelow]
    exact congrArg LuaValue.table (rawset_rawget hfield)

/-- A place of the message holds a table or something else. -/
theorem tableAt_cases (message : LuaValue) (path : Path) :
    (tableAt methods message path = none ∧
        ∀ fields, resolve methods message path ≠ some (.table fields)) ∨
      ∃ fields, resolve methods message path = some (.table fields) ∧
        tableAt methods message path = some (.table fields) := by
  unfold tableAt
  cases resolve methods message path with
  | none => simp
  | some v => cases v <;> simp [LuaValue.isTable]

/-- The fields of a view are changed when it resolves to a table. -/
theorem change_eq (s : Session) (w : View) (f : Fields → Fields) :
    (tableAt methods (s.current fl) w.path = none ∧ s.change fl methods w f = none) ∨
      ∃ fields, resolve methods (s.current fl) w.path = some (.table fields) ∧
        tableAt methods (s.current fl) w.path = some (.table fields) ∧
        s.change fl methods w f =
          some (tables.writeAt (.table (f fields)) w.path (s.current fl)) := by
  unfold Session.change
  rcases tableAt_cases methods (s.current fl) w.path with ⟨hnone, hnot⟩ | ⟨fields, hresolve, htable⟩
  · refine .inl ⟨hnone, ?_⟩
    split
    · next fields hresolve => exact absurd hresolve (hnot fields)
    · rfl
  · exact .inr ⟨fields, hresolve, htable, by rw [hresolve]⟩

/-- A change that writes along keys below its view writes along the keys of the view and its own. -/
theorem change_eq_writeAt {s : Session} {w : View} {f : Fields → Fields} {x : LuaValue}
    {keys : List LuaKey}
    (hf : ∀ fields, .table (f fields) = tables.writeAt x keys (.table fields)) :
    (tableAt methods (s.current fl) w.path = none ∧ s.change fl methods w f = none) ∨
      (tableAt methods (s.current fl) w.path).isSome = true ∧
        s.change fl methods w f = some (tables.writeAt x (w.path ++ keys) (s.current fl)) := by
  rcases change_eq fl methods s w f with hnone | ⟨fields, hresolve, htable, hchange⟩
  · exact .inl hnone
  · refine .inr ⟨by rw [htable]; rfl, ?_⟩
    rw [hchange, hf, tables.writeAt_append, (readAt_of_resolve methods hresolve rfl).1]

end Radapter.Lazy
