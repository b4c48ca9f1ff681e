import Radapter.Listeners.CallAll

/-!
# Who is called in a delivery

As long as no listener is cancelled that the loop of `call_all` has reached while a listener of
the start still waits, the waiting listeners keep their order behind the position of the loop.
Every one of them is then called exactly once, unless it is cancelled before its turn. A listener
that cancels itself breaks this for the one behind it.
-/

namespace Radapter.Listeners

open Library

variable {M : Type*}

/-- What is known of a delivery whose steps were harmless: behind the position of the loop wait
listeners of the start, in their order, and then new ones. -/
structure Inv (start : List ℕ) (msg : M) (s : Delivery M) : Prop where
  msg_eq : s.msg = msg
  /-- Only the message of the delivery is handed out. -/
  messages : ∀ listener m, .called listener m ∈ s.log → m = msg
  start_lt : ∀ listener ∈ start, listener < s.all.fresh
  called_lt : ∀ listener ∈ called s.log, listener < s.all.fresh
  waits : ∃ waiting new, s.all.items.drop s.turn = waiting ++ new ∧
    (∀ listener ∈ new, listener ∉ start) ∧
    (called s.log ++ (waiting ++ new)).Nodup ∧
    (waiting ≠ [] → (called s.log ++ waiting).Sublist start) ∧
    ∀ listener ∈ start, listener ∈ called s.log ∨
      CancelledBeforeTurn start s.log listener ∨ listener ∈ waiting
  ended : s.done = true → s.all.items.drop s.turn = []

/-- In a list that goes on with `waiting`, what comes earlier stands before each listener in
`waiting`. -/
theorem mem_takeWhile_of_sublist {start earlier waiting : List ℕ} (hstart : start.Nodup)
    (h : (earlier ++ waiting).Sublist start) {listener l : ℕ} (hlistener : listener ∈ waiting)
    (hl : l ∈ earlier) : l ∈ start.takeWhile (· ≠ listener) := by
  induction start generalizing earlier with
  | nil =>
    rw [List.sublist_nil, List.append_eq_nil_iff] at h
    rw [h.1] at hl
    cases hl
  | cons x start ih =>
    obtain ⟨hx, hstart⟩ := List.nodup_cons.mp hstart
    cases earlier with
    | nil => cases hl
    | cons e earlier =>
      rw [List.cons_append] at h
      cases h with
      | cons _ h =>
        have hmem : listener ∈ start :=
          h.subset (List.mem_cons_of_mem _ (List.mem_append_right _ hlistener))
        have hne : x ≠ listener := fun heq => hx (heq ▸ hmem)
        rw [List.takeWhile_cons_of_pos (by simpa using hne)]
        exact List.mem_cons_of_mem _ (ih hstart h hl)
      | cons_cons _ h =>
        have hmem : listener ∈ start := h.subset (List.mem_append_right _ hlistener)
        have hne : x ≠ listener := fun heq => hx (heq ▸ hmem)
        rw [List.takeWhile_cons_of_pos (by simpa using hne)]
        rcases List.mem_cons.mp hl with rfl | hl
        · exact List.mem_cons_self ..
        · exact List.mem_cons_of_mem _ (ih hstart h hl)

/-- Before the first round every listener of the start waits. -/
theorem inv_call_all (all : Table) (msg : M) : Inv all.items msg (call_all all msg) where
  msg_eq := rfl
  messages := by simp [call_all]
  start_lt := all.lt_fresh
  called_lt := by simp [call_all, called]
  waits := ⟨all.items, [], by simp [call_all], by simp, by simpa [call_all, called] using all.nodup,
    by simp [call_all, called], fun listener h => .inr (.inr h)⟩
  ended := by simp [call_all]

/-- A round of the loop that calls a listener. -/
theorem Inv.next {start : List ℕ} {msg : M} {s : Delivery M} (h : Inv start msg s)
    (hdone : s.done = false) {listener : ℕ} (hitem : s.all.items[s.turn]? = some listener) :
    Inv start msg
      { s with turn := s.turn + 1, log := s.log ++ [.called listener s.msg] } := by
  obtain ⟨waiting, new, hdrop, hnew, hnodup, hsub, hstart⟩ := h.waits
  have hcalled : called (s.log ++ [.called listener s.msg]) = called s.log ++ [listener] := by
    simp [called]
  have hhead : s.all.items.drop s.turn = listener :: s.all.items.drop (s.turn + 1) := by
    obtain ⟨hlt, hget⟩ := List.getElem?_eq_some_iff.mp hitem
    rw [List.drop_eq_getElem_cons hlt, hget]
  rw [hhead] at hdrop
  have hmem : listener ∈ s.all.items :=
    List.mem_of_mem_drop (hhead ▸ List.mem_cons_self .. : listener ∈ s.all.items.drop s.turn)
  constructor
  · exact h.msg_eq
  · intro l m hm
    rcases List.mem_append.mp hm with hm | hm
    · exact h.messages l m hm
    · cases List.mem_singleton.mp hm
      exact h.msg_eq
  · exact h.start_lt
  · intro l hl
    rw [hcalled] at hl
    rcases List.mem_append.mp hl with hl | hl
    · exact h.called_lt l hl
    · rw [List.mem_singleton.mp hl]
      exact s.all.lt_fresh _ hmem
  · rw [hcalled]
    cases waiting with
    | nil =>
      rw [List.nil_append] at hdrop
      subst hdrop
      refine ⟨[], s.all.items.drop (s.turn + 1), rfl,
        fun l hl => hnew l (List.mem_cons_of_mem _ hl), by simpa using hnodup, by simp, ?_⟩
      intro l hl
      rcases hstart l hl with hl | hl | hl
      · exact .inl (List.mem_append_left _ hl)
      · exact .inr (.inl (hl.append _))
      · cases hl
    | cons first waiting =>
      rw [List.cons_append, List.cons.injEq] at hdrop
      obtain ⟨rfl, hdrop⟩ := hdrop
      refine ⟨waiting, new, hdrop, hnew, by simpa using hnodup,
        fun _ => by simpa using hsub (by simp), ?_⟩
      intro l hl
      rcases hstart l hl with hl | hl | hl
      · exact .inl (List.mem_append_left _ hl)
      · exact .inr (.inl (hl.append _))
      · rcases List.mem_cons.mp hl with rfl | hl
        · exact .inl (List.mem_append_right _ (List.mem_singleton_self _))
        · exact .inr (.inr hl)
  · intro hend
    simp [hdone] at hend

/-- A new listener waits behind all others, if the loop gets to it at all. -/
theorem Inv.connect {start : List ℕ} {msg : M} {s : Delivery M} (h : Inv start msg s)
    (hdone : s.done = false) : Inv start msg { s with all := s.all.connect } := by
  obtain ⟨waiting, new, hdrop, hnew, hnodup, hsub, hstart⟩ := h.waits
  constructor
  · exact h.msg_eq
  · exact h.messages
  · exact fun l hl => Nat.lt_succ_of_lt (h.start_lt l hl)
  · exact fun l hl => Nat.lt_succ_of_lt (h.called_lt l hl)
  · have hlast : (s.all.items ++ [s.all.fresh]).drop s.turn =
        waiting ++ (new ++ [s.all.fresh].drop (s.turn - s.all.items.length)) := by
      rw [List.drop_append, hdrop, List.append_assoc]
    have hfresh : ([s.all.fresh].drop (s.turn - s.all.items.length)).Sublist [s.all.fresh] :=
      List.drop_sublist _ _
    refine ⟨waiting, _, hlast, ?_, ?_, hsub, hstart⟩
    · intro l hl hl'
      rcases List.mem_append.mp hl with hl | hl
      · exact hnew l hl hl'
      · rw [List.mem_singleton.mp (hfresh.subset hl)] at hl'
        exact absurd (h.start_lt _ hl') (Nat.lt_irrefl _)
    · have hall : (called s.log ++ (waiting ++ new) ++ [s.all.fresh]).Nodup := by
        rw [← List.concat_eq_append]
        refine List.Nodup.concat ?_ hnodup
        rw [← hdrop]
        intro hmem
        rcases List.mem_append.mp hmem with hmem | hmem
        · exact absurd (h.called_lt _ hmem) (Nat.lt_irrefl _)
        · exact absurd (s.all.lt_fresh _ (List.mem_of_mem_drop hmem)) (Nat.lt_irrefl _)
      refine List.Nodup.sublist ?_ hall
      simp only [List.append_assoc, List.append_sublist_append_left]
      exact hfresh
  · intro hend
    simp [hdone] at hend

/-- What waits after a listener was removed that the loop had reached: one listener fewer. -/
private theorem drop_erase_of_mem_take {items : List ℕ} {turn fn : ℕ} (h : fn ∈ items.take turn) :
    ∃ k, (items.erase fn).drop turn = (items.drop turn).drop k := by
  have herase : items.erase fn = (items.take turn).erase fn ++ items.drop turn := by
    conv_lhs => rw [← List.take_append_drop turn items]
    exact List.erase_append_left _ h
  have hshort : ((items.take turn).erase fn).length ≤ turn := by
    have hle := (List.erase_sublist (a := fn) (l := items.take turn)).length_le
    have htake := List.length_take_le turn items
    omega
  rw [herase, List.drop_append, List.drop_eq_nil_of_le hshort, List.nil_append]
  exact ⟨_, rfl⟩

/-- What waits after any other listener was removed. -/
private theorem drop_erase_of_not_mem_take {items : List ℕ} {turn fn : ℕ}
    (h : fn ∉ items.take turn) : (items.erase fn).drop turn = (items.drop turn).erase fn := by
  have herase : items.erase fn = items.take turn ++ (items.drop turn).erase fn := by
    conv_lhs => rw [← List.take_append_drop turn items]
    exact List.erase_append_right _ h
  rw [herase, List.drop_append, List.drop_eq_nil_of_le (List.length_take_le turn items),
    List.nil_append]
  by_cases hturn : turn ≤ items.length
  · rw [List.length_take, Nat.min_eq_left hturn, Nat.sub_self, List.drop_zero]
  · rw [List.drop_eq_nil_of_le (by omega : items.length ≤ turn)]
    simp

/-- A harmless removal. -/
theorem Inv.cancel {start : List ℕ} (hnodup_start : start.Nodup) {msg : M} {s : Delivery M}
    (h : Inv start msg s) (hdone : s.done = false) {fn : ℕ}
    (hgood : Harmless start s (.cancel fn)) :
    Inv start msg { s with all := s.all.cancel fn, log := s.log ++ [.cancelled fn] } := by
  obtain ⟨waiting, new, hdrop, hnew, hnodup, hsub, hstart⟩ := h.waits
  have hcalled : called (s.log ++ [.cancelled fn]) = called s.log := by simp [called]
  have hitems : (s.all.cancel fn).items = s.all.items.erase fn :=
    removeLast_eq_erase s.all.nodup fn
  constructor
  · exact h.msg_eq
  · intro l m hm
    rcases List.mem_append.mp hm with hm | hm
    · exact h.messages l m hm
    · cases List.mem_singleton.mp hm
  · exact h.start_lt
  · intro l hl
    rw [hcalled] at hl
    exact h.called_lt l hl
  · rw [hcalled, hitems]
    by_cases hreached : fn ∈ s.all.items.take s.turn
    · -- Only new listeners wait, and one of them is passed over.
      have hwaiting : waiting = [] := by
        by_contra hne
        obtain ⟨l, hl⟩ := List.exists_mem_of_ne_nil waiting hne
        refine hgood hreached l ?_ ((hsub hne).subset (List.mem_append_right _ hl))
        rw [hdrop]
        exact List.mem_append_left _ hl
      subst hwaiting
      obtain ⟨k, hk⟩ := drop_erase_of_mem_take hreached
      rw [hdrop, List.nil_append] at hk
      refine ⟨[], new.drop k, hk, fun l hl => hnew l (List.mem_of_mem_drop hl), ?_, by simp, ?_⟩
      · refine List.Nodup.sublist ?_ hnodup
        simp only [List.nil_append, List.append_sublist_append_left]
        exact List.drop_sublist k new
      · intro l hl
        rcases hstart l hl with hl | hl | hl
        · exact .inl hl
        · exact .inr (.inl (hl.append _))
        · cases hl
    · have hrest := drop_erase_of_not_mem_take hreached
      rw [hdrop] at hrest
      by_cases hfn : fn ∈ waiting
      · rw [List.erase_append_left _ hfn] at hrest
        have hfewer : (waiting.erase fn).Sublist waiting := List.erase_sublist
        have hne : waiting ≠ [] := List.ne_nil_of_mem hfn
        refine ⟨waiting.erase fn, new, hrest, hnew, ?_, ?_, ?_⟩
        · exact hnodup.sublist (hfewer.append_right _ |>.append_left _)
        · exact fun _ => (hfewer.append_left _).trans (hsub hne)
        · intro l hl
          rcases hstart l hl with hl | hl | hl
          · exact .inl hl
          · exact .inr (.inl (hl.append _))
          · by_cases heq : l = fn
            · subst heq
              exact .inr (.inl ⟨s.log, [], rfl,
                fun c hc => mem_takeWhile_of_sublist hnodup_start (hsub hne) hfn hc⟩)
            · exact .inr (.inr ((List.mem_erase_of_ne heq).mpr hl))
      · rw [List.erase_append_right _ hfn] at hrest
        have hfewer : (new.erase fn).Sublist new := List.erase_sublist
        refine ⟨waiting, new.erase fn, hrest, fun l hl => hnew l (hfewer.subset hl), ?_, hsub, ?_⟩
        · exact hnodup.sublist (hfewer.append_left _ |>.append_left _)
        · intro l hl
          rcases hstart l hl with hl | hl | hl
          · exact .inl hl
          · exact .inr (.inl (hl.append _))
          · exact .inr (.inr hl)
  · intro hend
    simp [hdone] at hend

/-- A harmless step keeps the order of the waiting listeners. -/
theorem Inv.step {start : List ℕ} (hnodup : start.Nodup) {msg : M} {s t : Delivery M} {a : Action}
    (h : Inv start msg s) (hgood : Harmless start s a) (hstep : step s a = some t) :
    Inv start msg t := by
  obtain ⟨hdone, ⟨listener, rfl, hitem, rfl⟩ | ⟨rfl, hitem, rfl⟩ | ⟨rfl, rfl⟩ | ⟨fn, rfl, rfl⟩⟩ :=
    step_cases hstep
  · exact h.next hdone hitem
  · have hend : s.all.items.drop s.turn = [] :=
      List.drop_eq_nil_of_le (List.getElem?_eq_none_iff.mp hitem)
    exact ⟨h.msg_eq, h.messages, h.start_lt, h.called_lt, h.waits, fun _ => hend⟩
  · exact h.connect hdone
  · exact h.cancel hnodup hdone hgood

/-! ## Whole deliveries -/

/-- The invariant is what a delivery owes its listeners. -/
theorem Inv.serves {start : List ℕ} {msg : M} {s : Delivery M} (h : Inv start msg s) :
    Serves start msg s := by
  obtain ⟨waiting, new, hdrop, hnew, hnodup, hsub, hstart⟩ := h.waits
  have hcalled : (called s.log).Nodup := hnodup.of_append_left
  have honce {l : ℕ} (hl : l ∈ called s.log) : received l s.log = [msg] := by
    rw [received_eq_replicate h.messages, List.count_eq_one_of_mem hcalled hl]
    rfl
  refine ⟨?_, ?_⟩
  · intro l _
    by_cases hl : l ∈ called s.log
    · exact .inr (honce hl)
    · left
      rw [received_eq_replicate h.messages, List.count_eq_zero_of_not_mem hl]
      rfl
  · intro hend l hl
    have hwaiting : waiting = [] := by
      rcases hend with hend | hend
      · rw [h.ended hend] at hdrop
        exact (List.append_eq_nil_iff.mp hdrop.symm).1
      · by_contra hne
        have hlen := (hsub hne).length_le
        have hpos := List.length_pos_of_ne_nil hne
        rw [List.length_append] at hlen
        omega
    rcases hstart l hl with hl | hl | hl
    · exact .inl (honce hl)
    · exact .inr hl
    · rw [hwaiting] at hl
      cases hl

/-- In every delivery whose changes to the table are harmless, each listener it started with is
called exactly once unless it is cancelled before its turn. -/
theorem call_all_serves (all : Table) (msg : M) {actions : List Action} {s : Delivery M}
    (hgood : Along step (Harmless all.items) (call_all all msg) actions)
    (hrun : run step (call_all all msg) actions = some s) : Serves all.items msg s := by
  have hinv : Inv all.items msg s :=
    run_invariant (fun h hg hs => h.step all.nodup hg hs) (inv_call_all all msg) hgood
      List.prefix_rfl hrun
  exact hinv.serves

/-- A table with three listeners. -/
def Table.three : Table where
  items := [0, 1, 2]
  fresh := 3
  nodup := by decide
  lt_fresh := by decide

/-- The first listener cancels the last one and connects another, the second cancels nothing, and
the new one cancels itself. -/
theorem call_all_serves_three :
    ∃ s, run step (call_all Table.three true) [.next, .cancel 2, .connect, .next, .next, .cancel 3,
        .next] = some s ∧ s.done = true ∧ received 0 s.log = [true] ∧ received 1 s.log = [true] ∧
      received 2 s.log = [] ∧ Serves [0, 1, 2] true s := by
  refine ⟨_, rfl, rfl, rfl, rfl, rfl, ?_⟩
  have hgood : Along step (Harmless Table.three.items) (call_all Table.three true)
      [.next, .cancel 2, .connect, .next, .next, .cancel 3, .next] := by decide
  exact call_all_serves Table.three true hgood rfl

/-- A listener that cancels itself, as `match_msg` does, makes the loop pass over the next one. -/
theorem call_all_passes_over :
    ∃ s, run step (call_all Table.three true) [.next, .cancel 0, .next, .next] = some s ∧
      s.done = true ∧ received 1 s.log = [] ∧ Event.cancelled 1 ∉ s.log ∧
      ¬ Serves [0, 1, 2] true s := by
  refine ⟨_, rfl, rfl, rfl, by decide, ?_⟩
  intro h
  rcases h.2 (.inl rfl) 1 (by decide) with h | ⟨before, after, h, -⟩
  · exact absurd h (by decide)
  · have hmem : Event.cancelled 1 ∈ before ++ Event.cancelled 1 :: after := by simp
    rw [← h] at hmem
    exact absurd hmem (by decide)

end Radapter.Listeners
