import Radapter.Service.Calls

/-!
# Every request that runs out of time is told

The timer collects the ids of the requests whose time has run out, and then removes them and calls
their callbacks one by one. Whatever happens between two iterations must leave the entries that are
still to come in the table, and must not end the loop.
-/

namespace Radapter.Service

open Library

/-! ## The guarantee -/

/-- No sweep has indexed an entry that is gone or is about to, and every request whose time ran out
in a tick has been told or is about to be. -/
structure Swept (s : State) : Prop where
  noError : ∀ text, .error text ∉ s.log
  present : ∀ id, s.Listed id → (s.reqs.lookup id).isSome
  invoked : ∀ k, .expired k ∈ s.log →
    (∃ n, .invoked k timeoutError n ∈ s.log) ∨ s.Listed (idOf k) ∧ s.Pending k

/-- The step removes no entry that a sweep has still to process and does not end a sweep that has
entries left, unless another one has them too: no response to one of them, no iteration of another
sweep for the same id, no request with the same id, and no error that leaves the sweep. -/
def Undisturbed (s : State) : ℕ × Op → Prop
  | (_, .responce (some id)) => ¬ s.Listed id
  | (_, .request) => ¬ s.Listed (idOf s.issued)
  | (t, .next) => ∀ id toRemove rest, s.fibers t = .sweep (id :: toRemove) :: rest →
      ¬ (s.setFiber t (.sweep toRemove :: rest)).Listed id
  | (t, .raise) => ∀ id, s.Listed id → (s.unwind t).Listed id
  | _ => True

/-- The invariant of the runs that nothing disturbs. -/
structure Sweeping (s : State) : Prop extends Tracked s where
  distinct : Assoc.Distinct s.reqs
  noError : ∀ text, .error text ∉ s.log
  present : ∀ id, s.Listed id → ∃ req, s.reqs.lookup id = some req ∧ .expired req.cb ∈ s.log
  invoked : ∀ k, .expired k ∈ s.log →
    (∃ n, .invoked k timeoutError n ∈ s.log) ∨ s.Listed (idOf k) ∧ s.Pending k

section Sweeping

variable {timeout : ℤ} {s s' : State} {a : ℕ × Op}

/-- At first there is no sweep. -/
theorem init_sweeping (issued : ℕ) : Sweeping (init issued) where
  toTracked := init_tracked issued
  distinct := List.nodup_nil
  noError _ h := by cases h
  present id h := by
    obtain ⟨t, toRemove, h, -⟩ := h
    cases h
  invoked _ h := by cases h

/-- The invariant gives what the sweeps guarantee. -/
theorem Sweeping.swept (h : Sweeping s) : Swept s where
  noError := h.noError
  present id hid := by
    obtain ⟨req, hreq, -⟩ := h.present id hid
    simp [hreq]
  invoked := h.invoked

/-- What a step must do for the sweeps that are under way: it keeps the entries that they have still
to process, and takes from them only what it tells. -/
structure Serves (s s' : State) : Prop where
  log : ∀ e ∈ s.log, e ∈ s'.log
  noError : ∀ text, .error text ∈ s'.log → .error text ∈ s.log
  kept : ∀ id, s'.Listed id → s.Listed id →
    (s'.reqs.lookup id).map Request.cb = (s.reqs.lookup id).map Request.cb
  listed : ∀ id, s'.Listed id → ¬ s.Listed id →
    ∃ req, s'.reqs.lookup id = some req ∧ .expired req.cb ∈ s'.log
  expired : ∀ k, .expired k ∈ s'.log → .expired k ∈ s.log ∨ s'.Listed (idOf k) ∧ s'.Pending k
  told : ∀ id, s.Listed id → s'.Listed id ∨
    ∀ req, s.reqs.lookup id = some req → ∃ n, .invoked req.cb timeoutError n ∈ s'.log

/-- A step that serves the sweeps under way keeps the invariant. -/
theorem Sweeping.serves (h : Sweeping s) (ht : Tracked s') (hdistinct : Assoc.Distinct s'.reqs)
    (hs : Serves s s') : Sweeping s' := by
  refine { ht with distinct := hdistinct, noError := fun text hmem => ?_,
                   present := fun id hid => ?_, invoked := fun k hk => ?_ }
  · exact h.noError text (hs.noError text hmem)
  · by_cases hold : s.Listed id
    · obtain ⟨req, hreq, hexpired⟩ := h.present id hold
      have hkept := hs.kept id hid hold
      rw [hreq, Option.map_some, Option.map_eq_some_iff] at hkept
      obtain ⟨req', hreq', hcb⟩ := hkept
      exact ⟨req', hreq', hcb ▸ hs.log _ hexpired⟩
    · exact hs.listed id hid hold
  · rcases hs.expired k hk with hk | hnew
    · rcases h.invoked k hk with ⟨n, hn⟩ | ⟨hid, req, hreq, hcb⟩
      · exact .inl ⟨n, hs.log _ hn⟩
      · rcases hs.told (idOf k) hid with hid' | htold
        · refine .inr ⟨hid', ?_⟩
          have hkept := hs.kept (idOf k) hid' hid
          rw [hreq, Option.map_some, Option.map_eq_some_iff] at hkept
          obtain ⟨req', hreq', hcb'⟩ := hkept
          exact ⟨req', hreq', hcb'.trans hcb⟩
        · exact .inl (hcb ▸ htold req hreq)
    · exact .inr hnew

/-- A step that leaves the entries before the sweeps where they are. -/
theorem serves_of_listed {events : List Event} (hlog : s'.log = s.log ++ events)
    (hevents : ∀ e ∈ events, (∀ k, e ≠ .expired k) ∧ ∀ text, e ≠ .error text)
    (hlisted : ∀ id, s'.Listed id ↔ s.Listed id)
    (hkept : ∀ id, s.Listed id →
      (s'.reqs.lookup id).map Request.cb = (s.reqs.lookup id).map Request.cb) : Serves s s' where
  log e he := by
    rw [hlog]
    exact List.mem_append_left _ he
  noError text hmem := by
    rw [hlog] at hmem
    exact (List.mem_append.mp hmem).resolve_right fun h => (hevents _ h).2 text rfl
  kept id _ hid := hkept id hid
  listed id hid hnot := absurd ((hlisted id).mp hid) hnot
  expired k hk := by
    rw [hlog] at hk
    exact .inl ((List.mem_append.mp hk).resolve_right fun h => (hevents _ h).1 k rfl)
  told id hid := .inl ((hlisted id).mpr hid)

/-- An iteration of a sweep. -/
theorem serves_of_expire {t id : ℕ} {toRemove : List ℕ} {rest : List Frame} {req : Request}
    (hstack : s.fibers t = .sweep (id :: toRemove) :: rest) (hreq : s.reqs.lookup id = some req)
    (hreqs : s'.reqs = Assoc.erase id s.reqs) {n : ℕ}
    (hlog : s'.log = s.log ++ [.invoked req.cb timeoutError n])
    (hlisted : ∀ id, s'.Listed id ↔ (s.setFiber t (.sweep toRemove :: rest)).Listed id)
    (halone : ¬ (s.setFiber t (.sweep toRemove :: rest)).Listed id) : Serves s s' := by
  have hsplit : ∀ id', s.Listed id' ↔ s'.Listed id' ∨ id' = id := by
    intro id'
    have hself : (s.setFiber t (s.fibers t)).Listed id' ↔ s.Listed id' :=
      listed_setFiber_same (fun _ => Iff.rfl) id'
    rw [← hself, hlisted, listed_setFiber, listed_setFiber, hstack, lists_sweep, lists_sweep,
      List.mem_cons]
    simp only [or_assoc, or_comm]
  have hmem : ∀ e, e ∈ s'.log ↔ e ∈ s.log ∨ e = .invoked req.cb timeoutError n := by
    intro e
    simp [hlog]
  refine ⟨fun e he => (hmem e).mpr (.inl he), fun text h => ?_, fun id' hid' _ => ?_,
    fun id' hid' hnot => ?_, fun k hk => ?_, fun id' hid' => ?_⟩
  · exact ((hmem _).mp h).resolve_right (by simp)
  · have hne : id' ≠ id := by
      rintro rfl
      exact halone ((hlisted id').mp hid')
    rw [hreqs, Assoc.lookup_erase_ne hne]
  · exact absurd ((hsplit id').mpr (.inl hid')) hnot
  · exact .inl (((hmem _).mp hk).resolve_right (by simp))
  · rcases (hsplit id').mp hid' with hid' | rfl
    · exact .inl hid'
    · refine .inr fun req' hreq' => ⟨n, (hmem _).mpr (.inr ?_)⟩
      rw [Option.some.inj (hreq.symm.trans hreq')]

/-- A tick lists what it found in the table. -/
theorem Sweeping.serves_of_tick (h : Sweeping s) {toRemove : List ℕ}
    (hperm : toRemove.Perm (s.due.map Prod.fst))
    (hreqs : s'.reqs = s.reqs.map (fun entry => (entry.1, entry.2.wait)))
    (hlog : s'.log = s.log ++ s.due.map (fun entry => .expired entry.2.cb))
    (hlisted : ∀ id, s'.Listed id ↔ s.Listed id ∨ id ∈ toRemove) : Serves s s' := by
  have hcb : ∀ req : Request, req.wait.cb = req.cb := by
    intro req
    unfold Request.wait
    split <;> rfl
  have hlookup : ∀ id, s'.reqs.lookup id = (s.reqs.lookup id).map Request.wait := by
    intro id
    rw [hreqs, Assoc.lookup_map]
  have hdue : ∀ entry ∈ s.due, s.reqs.lookup entry.1 = some entry.2 := fun entry hentry =>
    Assoc.lookup_of_mem h.distinct (List.mem_filter.mp hentry).1
  refine ⟨fun e he => ?_, fun text hmem => ?_, fun id _ _ => ?_, fun id hid hnot => ?_,
    fun k hk => ?_, fun id hid => .inl ((hlisted id).mpr (.inl hid))⟩
  · rw [hlog]
    exact List.mem_append_left _ he
  · rw [hlog] at hmem
    exact (List.mem_append.mp hmem).resolve_right (by simp)
  · rw [hlookup]
    cases s.reqs.lookup id with
    | none => rfl
    | some req => simp [hcb]
  · have hmem := ((hlisted id).mp hid).resolve_left hnot
    obtain ⟨entry, hentry, rfl⟩ := List.mem_map.mp (hperm.subset hmem)
    refine ⟨entry.2.wait, by rw [hlookup, hdue entry hentry]; rfl, ?_⟩
    rw [hlog, hcb]
    exact List.mem_append_right _ (List.mem_map.mpr ⟨entry, hentry, rfl⟩)
  · rw [hlog] at hk
    rcases List.mem_append.mp hk with hk | hk
    · exact .inl hk
    · obtain ⟨entry, hentry, hentryCb⟩ := List.mem_map.mp hk
      obtain rfl : entry.2.cb = k := Event.expired.inj hentryCb
      obtain ⟨hown, -⟩ := h.entry entry.1 entry.2 (hdue entry hentry)
      refine .inr ⟨(hlisted _).mpr (.inr ?_), entry.2.wait, ?_, hcb _⟩
      · rw [hown]
        exact hperm.symm.subset (List.mem_map_of_mem hentry)
      · rw [hown, hlookup, hdue entry hentry]
        rfl

/-- An error only takes ids away. -/
theorem listed_of_unwind {t id : ℕ} (hid : (s.unwind t).Listed id) : s.Listed id := by
  rcases listed_setFiber.mp hid with ⟨toRemove, hmem, hid⟩ | ⟨t', -, hid⟩
  · have hsub : ((s.fibers t).dropWhile (fun frame => decide (frame ≠ .pcall))).tail.Sublist
        (s.fibers t) := (List.tail_sublist _).trans (List.dropWhile_sublist _)
    exact ⟨t, toRemove, hsub.mem hmem, hid⟩
  · exact ⟨t', hid⟩

/-- Every step that disturbs no sweep keeps the invariant. -/
theorem Sweeping.step (h : Sweeping s) (hgood : Undisturbed s a)
    (hstep : step timeout s a = some s') : Sweeping s' := by
  have ht : Tracked s' := h.toTracked.step hstep
  cases effect_of_step hstep with
  | quiet _ hreqs _ hlog hlisted =>
    have hnil : s'.log = s.log ++ [] := by rw [hlog, List.append_nil]
    exact h.serves ht (hreqs ▸ h.distinct)
      (serves_of_listed hnil (by simp) hlisted (fun id _ => by rw [hreqs]))
  | request t hreqs _ hlog hlisted =>
    refine h.serves ht (hreqs ▸ Assoc.distinct_put _ _ h.distinct)
      (serves_of_listed hlog (by simp) hlisted fun id hid => ?_)
    have hne : id ≠ idOf s.issued := by
      rintro rfl
      exact hgood hid
    rw [hreqs, Assoc.lookup_put_ne hne]
  | responce t id req _ hreqs _ hlog hlisted =>
    refine h.serves ht (hreqs ▸ Assoc.distinct_erase _ h.distinct)
      (serves_of_listed hlog (by simp) hlisted fun id' hid' => ?_)
    have hne : id' ≠ id := by
      rintro rfl
      exact hgood hid'
    rw [hreqs, Assoc.lookup_erase_ne hne]
  | unknown t id text _ hreqs _ hlog hlisted =>
    exact h.serves ht (hreqs ▸ h.distinct)
      (serves_of_listed hlog (by simp) hlisted (fun id _ => by rw [hreqs]))
  | expire t id toRemove rest req hstack hreq hreqs _ hlog hlisted =>
    exact h.serves ht (hreqs ▸ Assoc.distinct_erase _ h.distinct)
      (serves_of_expire hstack hreq hreqs hlog hlisted (hgood id toRemove rest hstack))
  | gone t id toRemove rest text hstack hreq _ _ _ =>
    have hid : s.Listed id := ⟨t, id :: toRemove, by simp [hstack], List.mem_cons_self⟩
    obtain ⟨req, hreq', -⟩ := h.present id hid
    rw [hreq] at hreq'
    cases hreq'
  | raise t hs =>
    subst hs
    exact h.serves ht h.distinct (serves_of_listed (List.append_nil _).symm (by simp)
      (fun id => ⟨listed_of_unwind, hgood id⟩) (fun _ _ => rfl))
  | tick t toRemove hperm hreqs _ hlog hlisted =>
    refine h.serves ht ?_ (h.serves_of_tick hperm hreqs hlog hlisted)
    rw [hreqs, Assoc.Distinct, List.map_map]
    exact h.distinct

/-- An entry that a sweep has still to process has been told nothing, and is the only one that its
request has. -/
theorem Sweeping.owed (h : Sweeping s) {id : ℕ} (hid : s.Listed id) :
    ∃ k, idOf k = id ∧ k < s.issued ∧ .expired k ∈ s.log ∧
      ∀ r n, .invoked k r n ∉ s.log := by
  obtain ⟨req, hreq, hexpired⟩ := h.present id hid
  obtain ⟨hown, hsent, hnone⟩ := h.entry id req hreq
  refine ⟨req.cb, hown, h.issued _ hsent, hexpired, fun r n hmem => ?_⟩
  have hr := mem_invocations.mpr ⟨n, hmem⟩
  rw [hnone] at hr
  cases hr

/-- A sweep that has still to process an entry is lost if no other processes it later: its request
has been told nothing. -/
theorem Sweeping.not_swept_of_lost (h : Sweeping s) {id : ℕ} (hid : s.Listed id)
    (hlog : s'.log = s.log ++ [.requested s.issued] ∨ s'.log = s.log)
    (hnone : ∀ k, idOf k = id → k < s.issued → ¬ (s'.Listed id ∧ s'.Pending k)) : ¬ Swept s' := by
  intro hswept
  obtain ⟨k, rfl, hk, hexpired, hcalled⟩ := h.owed hid
  have hexpired' : .expired k ∈ s'.log := by
    rcases hlog with hlog | hlog <;> simp [hlog, hexpired]
  rcases hswept.invoked k hexpired' with ⟨n, hn⟩ | howed
  · rcases hlog with hlog | hlog
    · exact hcalled _ n (by simpa [hlog] using hn)
    · exact hcalled _ n (hlog ▸ hn)
  · exact hnone k rfl hk howed

/-- A step that disturbs a sweep breaks the guarantee at once. -/
theorem Sweeping.break (h : Sweeping s) (hbad : ¬ Undisturbed s a)
    (hstep : Service.step timeout s a = some s') : ¬ Swept s' := by
  intro hswept
  obtain ⟨t, op⟩ := a
  cases op with
  | responce id =>
    cases id with
    | none => exact hbad trivial
    | some id =>
      have hid : s.Listed id := not_not.mp hbad
      obtain ⟨req, hreq, -⟩ := h.present id hid
      cases effect_of_step hstep with
      | quiet hquiet => exact hquiet
      | responce t id req _ hreqs _ _ hlisted =>
        have hpresent := hswept.present id ((hlisted id).mpr hid)
        rw [hreqs, Assoc.lookup_erase_self] at hpresent
        cases hpresent
      | unknown t id text hnone =>
        rw [hnone id rfl] at hreq
        cases hreq
  | request =>
    have hid : s.Listed (idOf s.issued) := not_not.mp hbad
    cases effect_of_step hstep with
    | quiet hquiet => exact hquiet
    | request t hreqs _ hlog hlisted =>
      refine h.not_swept_of_lost hid (.inl hlog) (fun k hk hlt howed => ?_) hswept
      obtain ⟨-, req, hreq, hcb⟩ := howed
      rw [hreqs, hk, Assoc.lookup_put_self] at hreq
      obtain rfl := Option.some.inj hreq
      exact Nat.ne_of_gt hlt hcb
  | next =>
    obtain ⟨id, toRemove, rest, hstack, hagain⟩ : ∃ id toRemove rest,
        s.fibers t = .sweep (id :: toRemove) :: rest ∧
        (s.setFiber t (.sweep toRemove :: rest)).Listed id := by
      simpa [Undisturbed] using hbad
    have hid : s.Listed id := ⟨t, id :: toRemove, by simp [hstack], List.mem_cons_self⟩
    cases effect_of_step hstep with
    | quiet hquiet => exact hquiet id toRemove rest hstack
    | expire t id' toRemove' rest' req hstack' _ hreqs _ _ hlisted =>
      rw [hstack] at hstack'
      cases hstack'
      have hpresent := hswept.present id ((hlisted id).mpr hagain)
      rw [hreqs, Assoc.lookup_erase_self] at hpresent
      cases hpresent
    | gone t id' toRemove' rest' text hstack' _ _ _ hlog =>
      exact hswept.noError text (by simp [hlog])
  | raise =>
    obtain ⟨id, hid, hgone⟩ : ∃ id, s.Listed id ∧ ¬ (s.unwind t).Listed id := by
      simpa [Undisturbed] using hbad
    cases effect_of_step hstep with
    | quiet hquiet => exact hquiet
    | raise t hs =>
      subst hs
      exact absurd hswept
        (h.not_swept_of_lost hid (.inr rfl) fun k _ _ howed => hgone howed.1)
  | start | next_id | pcall | ret | tick => exact hbad trivial

end Sweeping

/-- Along a run of a service, no sweep indexes an entry that is gone and every request whose time
runs out in a tick is told, if and only if nothing disturbs the sweeps. -/
theorem swept_iff_along {timeout : ℤ} {issued : ℕ} {actions : List (ℕ × Op)} {s : State}
    (hrun : run (step timeout) (init issued) actions = some s) :
    (∀ done u, done <+: actions → run (step timeout) (init issued) done = some u → Swept u) ↔
      Along (step timeout) Undisturbed (init issued) actions :=
  forall_run_iff_along (fun h hgood hstep => Sweeping.step h hgood hstep) Sweeping.swept
    (fun h hbad hstep => Sweeping.break h hbad hstep) (init_sweeping issued) hrun

/-- A request runs out of time, and its callback is called. -/
def oneExpires : List (ℕ × Op) :=
  [(0, .start), (0, .request), (0, .ret), (1, .tick [0]), (1, .next), (1, .ret), (1, .next)]

/-- One request that runs out of time: it is told, and the guarantee holds after every event. -/
theorem swept_oneExpires : (∃ t, run (step 400) (init 0) oneExpires = some t) ∧
    ∀ done u, done <+: oneExpires → run (step 400) (init 0) done = some u → Swept u := by
  refine ⟨⟨_, rfl⟩, ?_⟩
  refine (swept_iff_along rfl).mpr (.cons trivial rfl (.cons ?_ rfl (.cons trivial rfl
    (.cons trivial rfl (.cons ?_ rfl (.cons trivial rfl (.cons ?_ rfl trivial)))))))
  · rintro ⟨t, toRemove, hmem, -⟩
    cases t with
    | zero => exact absurd hmem (by simp [State.setFiber])
    | succ t => cases hmem
  · intro id toRemove rest hstack
    cases hstack
    rintro ⟨t, toRemove, hmem, hid⟩
    rcases t with _ | _ | t
    · cases List.mem_singleton.mp hmem
    · obtain rfl : toRemove = [] := Frame.sweep.inj (List.mem_singleton.mp hmem)
      cases hid
    · cases hmem
  · intro id toRemove rest hstack
    cases hstack

/-- Two requests run out of time in the same tick, and the sweep calls the callback of the first. -/
def firstExpires : List (ℕ × Op) :=
  [(0, .start), (0, .request), (0, .ret), (0, .request), (0, .ret), (0, .ret), (1, .tick [0, 1]),
    (1, .next)]

/-- From inside the first callback comes the response to the second request: the sweep indexes an
entry that is gone. -/
theorem not_swept_responceInside : ¬ ∀ s,
    run (step 400) (init 0) (firstExpires ++ [(1, .responce (some 1)), (1, .ret), (1, .next),
      (1, .ret), (1, .next)]) = some s → Swept s := by
  intro h
  exact absurd (by decide) ((h _ rfl).noError "attempt to index a nil value")

end Radapter.Service
