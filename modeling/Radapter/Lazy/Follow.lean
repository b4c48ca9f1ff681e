import Radapter.Lazy.Current

/-!
# Views follow the message

In every session whose steps meet the condition on the keys, each operation reads or changes the
current message as Lua reads and changes a table. Before the first write a view reads its retained
subtree, which stands for the table at its keys; after it, the view is looked up in the table again
for every operation.
-/

namespace Radapter.Lazy

open Library Lua

variable (fl : Floats) (methods : Methods)

/-! ## Views of the retained tree -/

/-- The view keeps the container that its keys lead to in the table of the message. -/
def Faithful (retained : QVariant) (w : View) : Prop :=
  w.value.isContainer = true ∧ w.value.Ascending ∧
    resolve methods (Push fl retained) w.path = some (Push fl w.value)

/-- The last key is looked up in what the others lead to. -/
theorem resolve_concat (v : LuaValue) (path : Path) (k : LuaKey) :
    resolve methods v (path ++ [k]) =
      (resolve methods v path).bind (fun t => gettable methods t k) := by
  unfold resolve
  rw [List.foldlM_append]
  cases path.foldlM (gettable methods) v with
  | none => rfl
  | some t =>
    change [k].foldlM (gettable methods) t = gettable methods t k
    simp

/-- A faithful view stands for a table. -/
theorem Faithful.isTable {retained : QVariant} {w : View} (h : Faithful fl methods retained w) :
    (Push fl w.value).isTable = true := by
  rw [isTable_push, h.1]

/-- A faithful view resolves to the table of its value. -/
theorem Faithful.tableAt {retained : QVariant} {w : View} (h : Faithful fl methods retained w) :
    Lazy.tableAt methods (Push fl retained) w.path = some (Push fl w.value) := by
  rw [Lazy.tableAt, h.2.2, Option.filter_some, if_pos (h.isTable fl methods)]

/-- Indexing a faithful view gives a faithful one. -/
theorem Faithful.index {retained : QVariant} {w below : View} (h : Faithful fl methods retained w)
    {k : LuaKey} (hk : FindsSame w.value k) (hbelow : PushIndexed fl w k = .view below) :
    Faithful fl methods retained below := by
  obtain ⟨hcontainer, hsorted, hresolve⟩ := h
  obtain ⟨child, hchild, hc, rfl⟩ := exists_of_PushIndexed fl hbelow
  refine ⟨hc, ascending_childOf hsorted hchild, ?_⟩
  rw [resolve_concat, hresolve, Option.bind_some, gettable_push fl methods hcontainer hsorted hk,
    hchild]
  rfl

/-- Following a path from a faithful view gives a faithful one. -/
theorem Faithful.getPathLoop {retained : QVariant} {w below : View}
    (h : Faithful fl methods retained w) {keys : List LuaKey} (hkeys : FindsAlong w.value keys)
    (hbelow : getPathLoop fl w keys = .view below) : Faithful fl methods retained below := by
  induction keys generalizing w with
  | nil =>
    obtain rfl := Shown.view.inj hbelow
    exact h
  | cons k rest ih =>
    rw [Lazy.getPathLoop] at hbelow
    cases hindex : PushIndexed fl w k with
    | view next =>
      simp only [hindex] at hbelow
      have hnext := h.index fl methods hkeys.1 hindex
      obtain ⟨child, hchild, -, rfl⟩ := exists_of_PushIndexed fl hindex
      exact ih hnext (hkeys.2 child hchild) hbelow
    | value v =>
      simp only [hindex] at hbelow
      split at hbelow <;> cases hbelow

/-- What is shown from the retained tree is what Lua reads in the table of the message. -/
theorem shows_plain {retained : QVariant} {shown : Shown}
    (h : ∀ w, shown = .view w → Faithful fl methods retained w) :
    Shows methods (Push fl retained) (.shown shown) (some (shown.plain fl)) := by
  cases shown with
  | value v => exact .inl rfl
  | view w =>
    have hw := h w rfl
    exact .inr ⟨w, rfl, hw.isTable fl methods, hw.2.2⟩

/-! ## Single steps -/

/-- The invariant of a session: every held view is faithful to the retained tree. -/
def ViewsFaithful (s : Session) : Prop := ∀ w ∈ s.views, Faithful fl methods s.retained w

/-- An answer does not change the message. -/
theorem current_answer (s : Session) (o : Outcome) : (s.answer o).current fl = s.current fl := by
  unfold Session.answer
  split <;> rfl

/-- It is what was given back last. -/
theorem last_answer (s : Session) (o : Outcome) : (s.answer o).last = o := by
  unfold Session.answer
  split <;> rfl

/-- It does not change the retained tree. -/
theorem retained_answer (s : Session) (o : Outcome) : (s.answer o).retained = s.retained := by
  unfold Session.answer
  split <;> rfl

/-- A view that an answer adds is the one that is shown. -/
theorem ViewsFaithful.answer {s : Session} (h : ViewsFaithful fl methods s) {o : Outcome}
    (ho : ∀ w, o = .shown (.view w) → Faithful fl methods s.retained w) :
    ViewsFaithful fl methods (s.answer o) := by
  intro w hw
  rw [retained_answer]
  unfold Session.answer at hw
  split at hw
  · next shown =>
    rcases List.mem_append.mp hw with hw | hw
    · exact h w hw
    · obtain rfl := List.mem_singleton.mp hw
      exact ho w rfl
  · exact h w hw

/-- `NodeIndex` reads the current message. -/
theorem nodeIndex_shows {s : Session} {w : View} (hw : Faithful fl methods s.retained w)
    {k : LuaKey} (hk : k ≠ materializeKey) (hfinds : s.table = none → FindsSame w.value k) :
    Shows methods (s.current fl) (s.NodeIndex fl methods w k)
        ((resolve methods (s.current fl) w.path).bind (gettable methods · k)) ∧
      ∀ below, s.NodeIndex fl methods w k = .shown (.view below) →
        Faithful fl methods s.retained below := by
  unfold Session.NodeIndex Session.current
  rw [if_neg hk]
  cases htable : s.table with
  | none =>
    have hindex : ∀ below, PushIndexed fl w k = .view below →
        Faithful fl methods s.retained below :=
      fun below hbelow => hw.index fl methods (hfinds htable) hbelow
    simp only [Option.getD_none]
    refine ⟨?_, fun below hbelow => hindex below (Outcome.shown.inj hbelow)⟩
    rw [hw.2.2, Option.bind_some,
      plain_PushIndexed fl methods hw.1 hw.2.1 (hfinds htable)]
    exact shows_plain fl methods hindex
  | some table =>
    simp only [Option.getD_some]
    cases (resolve methods table w.path).bind (gettable methods · k) with
    | none => exact ⟨rfl, fun _ h => by cases h⟩
    | some v => exact ⟨.inl rfl, fun _ h => by cases h⟩

/-- `GetPath` from a faithful view gives a faithful one. -/
theorem Faithful.getPath {retained : QVariant} {w below : View} (h : Faithful fl methods retained w)
    {path sep : Bytes} (hfinds : FindsAlong w.value (viewKeys sep path))
    (hbelow : GetPath fl sep path w = .view below) : Faithful fl methods retained below := by
  unfold GetPath at hbelow
  split at hbelow
  · obtain rfl := Shown.view.inj hbelow
    exact h
  · exact h.getPathLoop fl methods hfinds hbelow

/-- Without a leading separator `GetPath` shows what stands along the keys in the table. -/
theorem plain_getPath {w : View} (hw : w.value.isContainer = true) (hsorted : w.value.Ascending)
    {path sep : Bytes} (hleading : sep <+: path → path = sep)
    (hfinds : FindsAlong w.value (viewKeys sep path)) :
    (GetPath fl sep path w).plain fl = tables.readAt (Push fl w.value) (pathKeys sep path) := by
  unfold GetPath pathKeys
  split
  · rfl
  · next hwhole =>
    have hkeys : tableKeys sep path = viewKeys sep path := by
      rw [tableKeys, if_neg fun hpre => hwhole (.inr (hleading hpre))]
    rw [plain_getPathLoop fl hw hsorted hfinds, hkeys]

/-- `Get` reads what stands along the keys, where it meets no scalar. -/
theorem Get_eq_readAt {sep path : Bytes} {fields : Fields}
    (h : MeetsNoScalar (.table fields) (pathKeys sep path)) :
    Get sep path (.table fields) = some (tables.readAt (.table fields) (pathKeys sep path)) := by
  have hloop := getLoop_eq h
  unfold Get
  unfold pathKeys at hloop ⊢
  split
  · rfl
  · next hwhole => rwa [if_neg hwhole] at hloop

/-- `GetPath` reads the current message. -/
theorem getThrough_shows {s : Session} {w : View} (hw : Faithful fl methods s.retained w)
    {path sep : Bytes} (hleading : sep <+: path → path = sep)
    (hscalar : ∀ t ∈ tableAt methods (s.current fl) w.path, MeetsNoScalar t (pathKeys sep path))
    (hfinds : s.table = none → FindsAlong w.value (viewKeys sep path)) :
    Shows methods (s.current fl) (s.getThrough fl methods w path sep)
        (if sep = [] then none else
          (tableAt methods (s.current fl) w.path).map (tables.readAt · (pathKeys sep path))) ∧
      ∀ below, s.getThrough fl methods w path sep = .shown (.view below) →
        Faithful fl methods s.retained below := by
  unfold Session.getThrough
  by_cases hsep : sep = []
  · rw [if_pos hsep, if_pos hsep]
    exact ⟨rfl, fun _ h => by cases h⟩
  rw [if_neg hsep, if_neg hsep]
  cases htable : s.table with
  | none =>
    have hcurrent : s.current fl = Push fl s.retained := by rw [Session.current, htable]; rfl
    have hfaithful : ∀ below, GetPath fl sep path w = .view below →
        Faithful fl methods s.retained below :=
      fun below hbelow => hw.getPath fl methods (hfinds htable) hbelow
    refine ⟨?_, fun below hbelow => hfaithful below (Outcome.shown.inj hbelow)⟩
    rw [hcurrent, hw.tableAt fl methods, Option.map_some,
      ← plain_getPath fl hw.1 hw.2.1 hleading (hfinds htable)]
    exact shows_plain fl methods hfaithful
  | some table =>
    have hcurrent : s.current fl = table := by rw [Session.current, htable]; rfl
    rw [hcurrent] at hscalar ⊢
    rcases tableAt_cases methods table w.path with ⟨hnone, hnot⟩ | ⟨fields, hresolve, hsome⟩
    · simp only [hnone]
      exact ⟨rfl, fun _ h => by cases h⟩
    · simp only [hresolve, Get_eq_readAt (hscalar (.table fields) hsome), hsome]
      exact ⟨.inl rfl, fun _ h => by cases h⟩

/-- `NodeNewIndex` changes the current message at the key. -/
theorem nodeNewIndex_correct (s : Session) (w : View) (i : ℕ) (k : LuaKey) (x : LuaValue) :
    Correct methods w.path (s.current fl) (s.NodeNewIndex fl methods w k x).last
      ((s.NodeNewIndex fl methods w k x).current fl) (.assign i k x) := by
  rcases change_eq_writeAt fl methods (s := s) (w := w) (f := fun fields => rawset fields k x)
    (fun fields => (writeAt_table x k [] fields).symm) with ⟨hnone, hchange⟩ | ⟨hsome, hchange⟩
  · simp only [Correct, Session.NodeNewIndex, hnone, hchange]
    exact ⟨trivial, rfl⟩
  · simp only [Correct, Session.NodeNewIndex, hsome, hchange, if_true]
    exact ⟨trivial, changed_writeAt _ _ x⟩

/-- `Set` changes the current message at the end of the path. -/
theorem set_correct (s : Session) (w : View) (i : ℕ) (path : Bytes) (x : LuaValue) (sep : Bytes) :
    Correct methods w.path (s.current fl) (s.Set fl methods w path x sep).last
      ((s.Set fl methods w path x sep).current fl) (.set i path x sep) := by
  have hkeys : (if path = [] ∨ path = sep then [] else tableKeys sep path) =
      pathKeys sep path := rfl
  unfold Session.Set Correct
  simp only [hkeys]
  rcases change_eq fl methods s w (setLoop x (pathKeys sep path)) with
    ⟨hnone, hchange⟩ | ⟨fields, hresolve, htable, hchange⟩
  · rw [hnone, hchange, if_neg (by simp)]
    exact ⟨rfl, rfl⟩
  · rw [htable, hchange]
    obtain ⟨hread, habove⟩ := readAt_of_resolve methods hresolve rfl
    by_cases hsep : sep = []
    · simp only [hsep, ne_eq, not_true, false_and, if_false, if_true]
      exact ⟨trivial, rfl⟩
    · simp only [ne_eq, hsep, not_false_eq_true, Option.isSome_some, and_self, if_true]
      refine ⟨rfl, ?_⟩
      by_cases hnone : pathKeys sep path = []
      · rw [if_pos hnone, hnone]
        have hsame := writeAt_readAt habove
        rw [hread] at hsame
        exact hsame
      · rw [if_neg hnone, setLoop_eq hnone, ← hread, ← tables.writeAt_append]
        exact changed_writeAt _ _ x

/-- `NodeMaterialize` shows what the view resolves to. -/
theorem nodeMaterialize_shows (s : Session) (w : View) :
    Shows methods (s.current fl) (s.NodeMaterialize fl methods w)
      (resolve methods (s.current fl) w.path) ∧
      ∀ below, s.NodeMaterialize fl methods w ≠ .shown (.view below) := by
  unfold Session.NodeMaterialize
  cases resolve methods (s.current fl) w.path with
  | none => exact ⟨rfl, fun _ h => by cases h⟩
  | some v => exact ⟨.inl rfl, fun _ h => by cases h⟩

/-- A write adds no view. -/
theorem ViewsFaithful.write {s t : Session} (h : ViewsFaithful fl methods s)
    (hviews : t.views = s.views) (hretained : t.retained = s.retained) :
    ViewsFaithful fl methods t := by
  unfold ViewsFaithful
  rw [hviews, hretained]
  exact h

/-- An assignment changes the table of the message and neither the views nor what they retain. -/
theorem nodeNewIndex_frame (s : Session) (w : View) (k : LuaKey) (x : LuaValue) :
    (s.NodeNewIndex fl methods w k x).views = s.views ∧
      (s.NodeNewIndex fl methods w k x).retained = s.retained := by
  unfold Session.NodeNewIndex
  split <;> exact ⟨rfl, rfl⟩

/-- So does `set`. -/
theorem set_frame (s : Session) (w : View) (path : Bytes) (x : LuaValue) (sep : Bytes) :
    (s.Set fl methods w path x sep).views = s.views ∧
      (s.Set fl methods w path x sep).retained = s.retained := by
  unfold Session.Set
  simp only
  split
  · exact ⟨rfl, rfl⟩
  · split <;> exact ⟨rfl, rfl⟩

/-- An operation that meets the condition does what it should and keeps the views faithful. -/
theorem perform_correct {s : Session} (h : ViewsFaithful fl methods s) {a : Action} {w : View}
    (hw : s.views[a.view]? = some w) (hallowed : Allowed fl methods s w a) (hfinds : Finds s w a) :
    ViewsFaithful fl methods (s.perform fl methods w a) ∧
      Correct methods w.path (s.current fl) (s.perform fl methods w a).last
        ((s.perform fl methods w a).current fl) a := by
  have hfaithful := h w (List.mem_of_getElem? hw)
  cases a with
  | index i k =>
    obtain ⟨hshows, hview⟩ := nodeIndex_shows fl methods hfaithful hallowed hfinds
    refine ⟨h.answer fl methods hview, ?_⟩
    rw [Session.perform, last_answer, current_answer]
    exact ⟨hshows, rfl⟩
  | get i path sep =>
    obtain ⟨hleading, hscalar⟩ := hallowed
    obtain ⟨hshows, hview⟩ := getThrough_shows fl methods hfaithful hleading hscalar hfinds
    refine ⟨h.answer fl methods hview, ?_⟩
    rw [Session.perform, last_answer, current_answer]
    exact ⟨hshows, rfl⟩
  | assign i k x =>
    obtain ⟨hviews, hretained⟩ := nodeNewIndex_frame fl methods (s.MaterializeMessage fl) w k x
    exact ⟨h.write fl methods hviews hretained,
      nodeNewIndex_correct fl methods (s.MaterializeMessage fl) w i k x⟩
  | set i path x sep =>
    obtain ⟨hviews, hretained⟩ := set_frame fl methods (s.MaterializeMessage fl) w path x sep
    exact ⟨h.write fl methods hviews hretained,
      set_correct fl methods (s.MaterializeMessage fl) w i path x sep⟩
  | materialize i =>
    obtain ⟨hshows, hnone⟩ := nodeMaterialize_shows fl methods s w
    have hkept : ViewsFaithful fl methods (s.MaterializeMessage fl) := h.write fl methods rfl rfl
    refine ⟨hkept.answer fl methods fun below hbelow => absurd hbelow (hnone below), ?_⟩
    rw [Session.perform, last_answer, current_answer]
    exact ⟨hshows, rfl⟩

/-- A step that meets the condition does what it should and keeps the views faithful. -/
theorem step_correct {s t : Session} (h : ViewsFaithful fl methods s) {c : Call}
    (hgood : Good fl methods s c) (hstep : s.step fl methods c = some t) :
    ViewsFaithful fl methods t ∧ ∃ w, s.views[c.action.view]? = some w ∧
      Correct methods w.path (s.current fl) t.last (t.current fl) c.action := by
  obtain ⟨w, hw, rfl⟩ := Option.map_eq_some_iff.mp hstep
  obtain ⟨hallowed, hfinds, hslots⟩ := hgood w hw
  have hfits : ¬ (s.Resolves c.action ∧ c.slots < slotsNeeded w.path) :=
    fun hover => absurd (hslots hover.1) (not_le.mpr hover.2)
  rw [if_neg hfits]
  obtain ⟨hviews, hcorrect⟩ := perform_correct fl methods h hw hallowed hfinds
  exact ⟨hviews, w, hw, hcorrect⟩

/-! ## Whole sessions -/

/-- A new session has the root view only. -/
theorem viewsFaithful_PushRoot {message : QVariant} (hmessage : message.isContainer = true)
    (hsorted : message.Ascending) : ViewsFaithful fl methods (PushRoot message) := by
  intro w hw
  obtain rfl := List.mem_singleton.mp hw
  exact ⟨hmessage, hsorted, rfl⟩

/-- At every point of every session whose steps meet the condition, an operation through a view
reads the current message along the keys of the view as Lua does, or changes it exactly at the
place it names. -/
theorem views_follow_message {message : QVariant} (hmessage : message.isContainer = true)
    (hsorted : message.Ascending) {calls done : List Call} {c : Call}
    (hgood : Along (Session.step fl methods) (Good fl methods) (PushRoot message) calls)
    (hdone : done ++ [c] <+: calls) {s t : Session}
    (hrun : run (Session.step fl methods) (PushRoot message) done = some s)
    (hstep : s.step fl methods c = some t) :
    ∃ w, s.views[c.action.view]? = some w ∧
      Correct methods w.path (s.current fl) t.last (t.current fl) c.action := by
  have hviews : ViewsFaithful fl methods s :=
    run_invariant (fun h hg hs => (step_correct fl methods h hg hs).1)
      (viewsFaithful_PushRoot fl methods hmessage hsorted) hgood
      ((List.prefix_append done [c]).trans hdone) hrun
  have hc : Good fl methods s c := good_of_along hgood hdone hrun
  exact (step_correct fl methods hviews hc hstep).2

/-- A view that is captured before a write through it reads what was written. -/
theorem views_follow_write :
    ∃ s t, run (Session.step .unused .unused)
          (PushRoot (.map [([97], .map [([98], .leaf (.bool true))])]))
          [⟨.index 0 (.string [97]), 20⟩, ⟨.assign 1 (.string [98]) (.integer 2), 20⟩] = some s ∧
      s.step .unused .unused ⟨.index 1 (.string [98]), 20⟩ = some t ∧
      t.last = .shown (.value (.integer 2)) ∧
      ∃ w, s.views[1]? = some w ∧
        Correct .unused w.path (s.current .unused) t.last (t.current .unused)
          (.index 1 (.string [98])) := by
  have hfinds : FindsSame (.map [([97], .map [([98], .leaf (.bool true))])]) (.string [97]) := by
    simp only [FindsSame, List.mem_singleton, forall_eq]
    exact iff_of_true (by decide) (by decide)
  have hgood : Along (Session.step .unused .unused) (Good .unused .unused)
      (PushRoot (.map [([97], .map [([98], .leaf (.bool true))])]))
      [⟨.index 0 (.string [97]), 20⟩, ⟨.assign 1 (.string [98]) (.integer 2), 20⟩,
        ⟨.index 1 (.string [98]), 20⟩] := by
    refine ⟨?_, fun t ht => ⟨?_, fun u hu => ⟨?_, fun _ _ => trivial⟩⟩⟩
    · intro w hw
      obtain rfl := Option.some.inj hw
      exact ⟨show _ ≠ _ by decide, fun _ => hfinds,
        fun _ => slotsNeeded_le (Nat.zero_le _) le_rfl⟩
    · obtain rfl := Option.some.inj ht
      intro w hw
      obtain rfl := Option.some.inj hw
      exact ⟨trivial, trivial, fun _ => show _ ≤ _ by decide⟩
    · obtain rfl := Option.some.inj ht
      obtain rfl := Option.some.inj hu
      intro w hw
      obtain rfl := Option.some.inj hw
      exact ⟨show _ ≠ _ by decide, fun h => absurd h (Option.some_ne_none _),
        fun _ => Nat.le_of_ble_eq_true rfl⟩
  have hdone : [(⟨.index 0 (.string [97]), 20⟩ : Call),
        ⟨.assign 1 (.string [98]) (.integer 2), 20⟩] ++ [⟨.index 1 (.string [98]), 20⟩] <+:
      [⟨.index 0 (.string [97]), 20⟩, ⟨.assign 1 (.string [98]) (.integer 2), 20⟩,
        ⟨.index 1 (.string [98]), 20⟩] := List.prefix_rfl
  refine ⟨_, _, rfl, rfl, rfl, ?_⟩
  exact views_follow_message .unused .unused rfl
    (by simp [QVariant.Ascending, QVariant.AscendingMap]) hgood hdone rfl rfl

/-- A key with a byte-order mark reads an entry without one, until the message becomes a table: no
message value is read by both. -/
theorem views_follow_not_mark :
    ∃ s t u, (PushRoot (.map [([97], .leaf (.bool true))])).step .unused .unused
          ⟨.index 0 (.string [0xEF, 0xBB, 0xBF, 97]), 20⟩ = some s ∧
      s.step .unused .unused ⟨.materialize 0, 20⟩ = some t ∧
      t.step .unused .unused ⟨.index 0 (.string [0xEF, 0xBB, 0xBF, 97]), 20⟩ = some u ∧
      ∀ message, ¬ (Correct .unused [] message s.last message
            (.index 0 (.string [0xEF, 0xBB, 0xBF, 97])) ∧
          Correct .unused [] message t.last message (.materialize 0) ∧
          Correct .unused [] message u.last message
            (.index 0 (.string [0xEF, 0xBB, 0xBF, 97]))) := by
  refine ⟨_, _, _, rfl, rfl, rfl, ?_⟩
  rintro message ⟨⟨hbefore, -⟩, -, ⟨hafter, -⟩⟩
  have hfirst : ∀ v, Shows .unused message (.shown (.value (.boolean true))) (some v) →
      v = .boolean true := by
    rintro v (h | ⟨w, h, -⟩)
    · simpa using h.symm
    · cases h
  have hsecond : ∀ v, Shows .unused message (.shown (.value .nil)) (some v) → v = .nil := by
    rintro v (h | ⟨w, h, -⟩)
    · simpa using h.symm
    · cases h
  revert hbefore hafter
  generalize (resolve .unused message []).bind
    (gettable .unused · (.string [0xEF, 0xBB, 0xBF, 97])) = expected
  intro hbefore hafter
  cases expected with
  | none => cases hbefore
  | some v =>
    have hone := hfirst v hbefore
    rw [hsecond v hafter] at hone
    cases hone

end Radapter.Lazy
