import Radapter.Registry.Plain

/-!
# The registry is not seen

Every action does with the references what it does with plain variables. So a value is never that of
another owner, a key is given up once, and a timer that is active is anchored.
-/

namespace Radapter.Registry

open Library

section Timers

variable {s s' : State} {p : Plain} {t : ℕ}

/-- The key of a timer's object. -/
theorem slot_timer {timer : Timer} (ht : s.timers t = some timer) :
    s.slot (.timer t) = slotOf timer.objectName := by
  rw [State.slot, ht, Option.bind_some]

/-- The key of a timer's function. -/
theorem slot_callback {timer : Timer} (ht : s.timers t = some timer) :
    s.slot (.callback t) = timer.f.slot := by
  rw [State.slot, ht, Option.bind_some]

/-- `LUA_NOREF` is no key. -/
theorem noref_negative : ¬ 0 ≤ LUA_NOREF := by decide

/-- A timer gives up its reference when it is stopped, however often. -/
theorem Refines.stopTimer (h : Refines s p) (ht : s.stopTimer t = some s') :
    Refines s' (p.step (.stopTimer t)) := by
  rw [State.stopTimer] at ht
  split at ht
  · cases ht
  · next timer htimer =>
    obtain rfl := Option.some.inj ht
    have hgood := h.timed.good htimer
    refine ⟨?_, ?_⟩
    · have hserves := h.serves.luaL_unref (slot_timer htimer)
      have hcallback : Function.update (Function.update s.slot (.timer t) none) (.callback t)
          timer.f.slot = Function.update s.slot (.timer t) none := by
        have hsame : timer.f.slot = Function.update s.slot (.timer t) none (.callback t) := by
          rw [Function.update_of_ne (by simp), slot_callback htimer]
        rw [hsame, Function.update_eq_self]
      rw [slot_setTimer, Option.bind_some, Option.bind_some]
      rw [← hcallback] at hserves
      exact hserves
    · apply h.timed.setTimer (t := t)
      · intro t' ht'
        simp [Plain.step, Plain.set, ht']
      · intro t' ht'
        rfl
      · rfl
      · intro t' ht'
        rfl
      · refine ⟨fun hactive => ?_, fun _ _ => rfl, hgood.oneshot, fun hx => ?_, fun hname => ?_⟩
        · cases hactive
        · simp [Plain.step, Plain.set] at hx
        · exact absurd hname noref_negative

/-- The value of a callback that is called. -/
theorem Refines.timeout (h : Refines s p) {i key : ℕ} (ht : s.timeout t i key = some s') :
    Refines s' (p.step (.timeout t i key)) := by
  rw [State.timeout] at ht
  split at ht
  · cases ht
  · next timer htimer =>
    obtain ⟨⟨hactive, hi⟩, ht⟩ := Option.ite_none_right_eq_some.mp ht
    have hgood := h.timed.good htimer
    split_ifs at ht with hvalid
    · obtain ⟨⟨table, v⟩, hv, hpair⟩ := Option.bind_eq_some_iff.mp ht
      obtain rfl := Option.some.inj hpair
      have hcopied := h.setValue (h.serves.copy (slot_of_vacant hi) (slot_callback htimer) hv)
      have htimer' : ({ s with table }.setValue i v).timers t = some timer := htimer
      refine ⟨?_, ?_⟩
      · have hslot : (({ s with table }.setValue i v).setTimer t
            (some { timer with active := !timer.singleShot })).slot =
              ({ s with table }.setValue i v).slot := by
          rw [slot_setTimer, Option.bind_some, Option.bind_some, ← slot_timer htimer',
            Function.update_eq_self, ← slot_callback htimer', Function.update_eq_self]
        have hserves := hcopied.serves
        rw [← hslot] at hserves
        exact hserves
      · apply hcopied.timed.setTimer (t := t)
        · intro t' ht'
          exact ⟨rfl, rfl⟩
        · intro t' ht'
          rfl
        · rfl
        · intro t' ht'
          exact Function.update_of_ne ht' ..
        · have hkept := hcopied.timed.good htimer'
          refine ⟨fun _ => hkept.active hactive, fun hsingle _ => ?_, hkept.oneshot,
            hkept.anchored, hkept.state⟩
          simp only
          rw [hsingle]
          rfl
    · -- An active timer has its function.
      obtain ⟨-, hheld⟩ := hgood.active hactive
      rw [h.serves.held_of_none ((slot_callback htimer).trans
        (LuaValue.slot_of_not_isValid (Bool.eq_false_iff.mpr hvalid)))] at hheld
      cases hheld

/-- A callback is over, and nothing else happens. -/
theorem Refines.ended (h : Refines s p) (hcalling : s.calling t ≠ 0) : Refines (s.ended t) p where
  serves := h.serves
  timed := by
    refine ⟨fun {t' timer} ht' => ?_, fun {t'} ht' => ?_⟩
    · have hgood := h.timed.good ht'
      refine ⟨hgood.active, fun hsingle hleft => ?_, hgood.oneshot,
        hgood.anchored, hgood.state⟩
      by_cases ht : t' = t
      · rw [ht] at ht' hgood
        exact hgood.calling hsingle hcalling
      · apply hgood.calling hsingle
        rw [State.ended] at hleft
        simpa [ht] using hleft
    · have hnone := h.timed.there ht'
      rw [State.ended]
      by_cases ht : t' = t
      · rw [ht] at hnone
        exact absurd hnone hcalling
      · simp [ht, hnone]

/-- The closure of a timer that is there, behind the call of its function. -/
theorem Refines.afterCall (h : Refines s p) (hcalling : s.calling t ≠ 0) :
    Refines (s.afterCall t) (p.step (.returned t)) := by
  rw [State.afterCall, Plain.step]
  split
  · next hnone => exact absurd (h.timed.there hnone) hcalling
  · next timer htimer =>
    have hgood := h.timed.good htimer
    rw [hgood.oneshot]
    split_ifs with hsingle hnull
    · have hstate := hgood.state hnull.1
      rw [hnull.2] at hstate
      cases hstate
    · have hcallback : Function.update s.slot (.timer t) none (.callback t) = timer.f.slot := by
        rw [Function.update_of_ne (by simp), slot_callback htimer]
      refine ⟨?_, ?_⟩
      · rw [slot_setTimer]
        exact (h.serves.luaL_unref (slot_timer htimer)).destroy hcallback
      · apply h.timed.setTimer (t := t)
        · intro t' ht'
          simp [Plain.set, ht']
        · intro t' ht'
          rfl
        · rfl
        · intro t' ht'
          rfl
        · refine ⟨fun hactive => ?_, fun _ _ => hgood.calling hsingle hcalling, hgood.oneshot,
            fun hx => ?_, fun hname => ?_⟩
          · rw [hgood.calling hsingle hcalling] at hactive
            cases hactive
          · simp [Plain.set] at hx
          · exact absurd hname noref_negative
    · exact h

/-- A timer is collected, and not while its function runs. -/
theorem Refines.collect (h : Refines s p) (ht : s.collect t = some s') (hkept : s.calling t = 0) :
    Refines s' (p.step (.collect t)) := by
  rw [State.collect] at ht
  split at ht
  · cases ht
  · next timer htimer =>
    obtain ⟨hfree, hpair⟩ := Option.ite_none_right_eq_some.mp ht
    obtain rfl := Option.some.inj hpair
    have hgood := h.timed.good htimer
    -- Its own reference would refer to the userdata.
    have hself : s.slot (.timer t) = none := by
      cases hslot : s.slot (.timer t) with
      | none => rfl
      | some key =>
        have htaken := h.serves.owned.taken hslot
        obtain ⟨x, hx⟩ := Option.isSome_iff_exists.mp htaken
        have hheld : p.held (.timer t) = some x := by
          rw [← h.serves.found_eq, found_of_some hslot, hx]
        obtain rfl := hgood.anchored hheld
        have hother := List.all_eq_true.mp hfree _ (Assoc.mem_of_lookup hx)
        simp at hother
    refine ⟨?_, ?_⟩
    · rw [slot_setTimer, Option.bind_none, Option.bind_none]
      have hidle := h.serves.idle hself
      refine hidle.destroy ?_
      rw [Function.update_of_ne (by simp), slot_callback htimer]
    · refine ⟨fun {t' timer'} ht' => ?_, fun {t'} ht' => ?_⟩
      · have hne : t' ≠ t := by
          rintro rfl
          simp [State.setTimer] at ht'
        have hold : s.timers t' = some timer' := by
          simpa [State.setTimer, hne] using ht'
        refine (h.timed.good hold).of_held ?_ rfl
        simp [Plain.step, Plain.set, hne]
      · by_cases hsame : t' = t
        · rw [hsame]
          exact hkept
        · apply h.timed.there
          simpa [State.setTimer, hsame] using ht'

/-- `Shutdown` leaves the references of the timers. -/
theorem Refines.shutdown (h : Refines s p) : Refines { s with
    timers := fun t => (s.timers t).map fun timer => { timer with active := false } } p where
  serves := by
    have hslot : ({ s with
        timers := fun t => (s.timers t).map fun timer => { timer with active := false } } :
          State).slot = s.slot := by
      funext o
      cases o with
      | timer t =>
        simp only [State.slot, Option.bind_map]
        rfl
      | callback t =>
        simp only [State.slot, Option.bind_map]
        rfl
      | value i => rfl
      | worker w => rfl
      | logHandler => rfl
    rw [hslot]
    exact h.serves
  timed := by
    refine ⟨fun {t timer} ht => ?_, fun {t} ht => ?_⟩
    · obtain ⟨old, hold, rfl⟩ := Option.map_eq_some_iff.mp ht
      have hgood := h.timed.good hold
      refine ⟨fun hactive => ?_, fun _ _ => rfl, hgood.oneshot, hgood.anchored, hgood.state⟩
      cases hactive
    · exact h.timed.there (Option.map_eq_none_iff.mp ht)

end Timers

section Values

variable {s : State} {p : Plain} {i j : ℕ}

/-- A value that is destroyed gives its key back, and its variable holds nothing. -/
theorem Refines.destroy (h : Refines s p) (i : ℕ) :
    Refines ({ s with table := (s.values i).destroy s.table }.setValue i {})
      (p.set (.value i) none) :=
  h.setValue (h.serves.destroy rfl)

/-- The move assignment is a destructor and a move. -/
theorem Refines.assignMove (h : Refines s p) (hij : i ≠ j) :
    Refines (({ s with table := (s.values i).destroy s.table }.setValue i (s.values j)).setValue j
      (s.values j).moved) (p.shift (.value i) (.value j)) := by
  have hempty : ({ s with table := (s.values i).destroy s.table }.setValue i {}).vacant i := by
    simp [State.vacant, State.setValue]
  have hmoved := (h.destroy i).shift hij (slot_of_vacant hempty)
  have hstate : (({ s with table := (s.values i).destroy s.table }.setValue i {}).setValue i
      (({ s with table := (s.values i).destroy s.table }.setValue i {}).values j)) =
        { s with table := (s.values i).destroy s.table }.setValue i (s.values j) := by
    simp [State.setValue, hij.symm]
  have hvalue : ({ s with table := (s.values i).destroy s.table }.setValue i {}).values j =
      s.values j := by
    simp [State.setValue, hij.symm]
  have hplain : (p.set (.value i) none).shift (.value i) (.value j) =
      p.shift (.value i) (.value j) := by
    have hne : Owner.value j ≠ .value i := fun heq => hij (Owner.value.inj heq).symm
    simp only [Plain.shift, Plain.set, Function.update_of_ne hne]
    rw [Function.update_comm hne.symm, Function.update_idem, Function.update_comm hne]
  rw [hstate, hvalue, hplain] at hmoved
  exact hmoved

end Values

/-- Every action does what it does with plain variables. -/
theorem Refines.step {s s' : State} {p : Plain} {a : Action} (h : Refines s p) (hkept : Kept s a)
    (ht : s.step a = some s') : Refines s' (p.step a) := by
  cases a with
  | construct i x key => exact h.take ht
  | copy i j key =>
    obtain ⟨hi, ht⟩ := Option.ite_none_right_eq_some.mp ht
    obtain ⟨⟨table, v⟩, hv, hpair⟩ := Option.bind_eq_some_iff.mp ht
    obtain rfl := Option.some.inj hpair
    exact h.setValue (h.serves.copy (slot_of_vacant hi) rfl hv)
  | move i j =>
    obtain ⟨⟨hi, hij⟩, rfl⟩ := of_guarded ht
    exact h.shift hij (slot_of_vacant hi)
  | assign i j key =>
    simp only [State.step] at ht
    rw [Plain.step]
    split_ifs at ht ⊢ with hij
    · obtain rfl := Option.some.inj ht
      exact h
    · obtain ⟨⟨table, v⟩, hv, hpair⟩ := Option.bind_eq_some_iff.mp ht
      obtain rfl := Option.some.inj hpair
      have hne : Owner.value i ≠ .value j := fun heq => hij (Owner.value.inj heq)
      exact h.setValue (h.serves.assign hne rfl rfl hv)
  | assignMove i j =>
    simp only [State.step] at ht
    rw [Plain.step]
    split_ifs at ht ⊢ with hij
    · obtain rfl := Option.some.inj ht
      exact h
    · obtain rfl := Option.some.inj ht
      exact h.assignMove hij
  | destroy i =>
    obtain rfl := Option.some.inj ht
    exact h.destroy i
  | timer t oneshot userdata function self key => exact h.startTimer ht
  | stopTimer t => exact h.stopTimer ht
  | timeout t i key => exact h.timeout ht
  | returned t =>
    simp only [State.step] at ht
    split_ifs at ht with hcalling
    obtain rfl := Option.some.inj ht
    refine (h.afterCall hcalling).ended ?_
    rw [State.afterCall]
    split
    · exact hcalling
    · split_ifs
      · exact hcalling
      · exact hcalling
      · exact hcalling
  | raised t =>
    simp only [State.step] at ht
    split_ifs at ht with hcalling
    obtain rfl := Option.some.inj ht
    exact h.ended hcalling
  | collect t => exact h.collect ht hkept
  | shutdown =>
    obtain rfl := Option.some.inj ht
    exact h.shutdown
  | push_worker w userdata key =>
    simp only [State.step] at ht
    split at ht
    · cases ht
    · next hnone =>
      obtain ⟨⟨table, ref⟩, href, hpair⟩ := Option.bind_eq_some_iff.mp ht
      obtain rfl := Option.some.inj hpair
      have hslot : s.slot (.worker w) = none := by rw [State.slot, hnone, Option.bind_none]
      refine ⟨?_, h.timed.set (by simp) (by rfl) (by rfl) (some userdata)⟩
      rw [slot_setWorker]
      exact h.serves.luaL_ref hslot href
  | destroyed w =>
    simp only [State.step] at ht
    split at ht
    · cases ht
    · next ref href =>
      obtain rfl := Option.some.inj ht
      have hslot : s.slot (.worker w) = slotOf ref := by rw [State.slot, href, Option.bind_some]
      refine ⟨?_, h.timed.set (by simp) (by rfl) (by rfl) none⟩
      rw [slot_setWorker]
      exact h.serves.luaL_unref hslot
  | worker_notify w i key =>
    simp only [State.step] at ht
    split at ht
    · cases ht
    · next ref href =>
      have hslot : s.slot (.worker w) = slotOf ref := by rw [State.slot, href, Option.bind_some]
      rw [h.serves.lua_rawgeti hslot] at ht
      exact h.take ht
  | log_handler x key =>
    have hserves := h.serves.luaL_unref (i := .logHandler) rfl
    cases x with
    | none =>
      obtain rfl := Option.some.inj ht
      refine ⟨?_, h.timed.set (by simp) (by rfl) (by rfl) none⟩
      rw [slot_setLogHandler]
      exact hserves
    | some x =>
      obtain ⟨⟨table, ref⟩, href, hpair⟩ := Option.bind_eq_some_iff.mp ht
      obtain rfl := Option.some.inj hpair
      have hnew := hserves.luaL_ref (Function.update_self ..) href
      rw [Function.update_idem, Function.update_idem] at hnew
      refine ⟨?_, h.timed.set (by simp) (by rfl) (by rfl) (some x)⟩
      rw [slot_setLogHandler]
      exact hnew
  | log i key =>
    simp only [State.step] at ht
    split_ifs at ht
    have hheld : s.table.lua_rawgeti s.luaLogHandler = p.held .logHandler :=
      h.serves.lua_rawgeti rfl
    rw [hheld] at ht
    exact h.take ht

/-! ## Runs -/

/-- Before the script is run. -/
theorem refines_init : Refines {} {} where
  serves := by
    have hslot : ({} : State).slot = fun _ => none := by
      funext o
      cases o with
      | _ => rfl
    refine ⟨rfl, ?_, ?_⟩
    · rw [hslot]
      exact owned_empty
    · rw [hslot]
      rfl
  timed := by
    refine ⟨fun ht => ?_, fun _ => rfl⟩
    cases ht

section Runs

variable {s : State} {actions : List Action}

/-- A run that collects no timer inside its function has the values of the plain variables. -/
theorem refines_of_run (hgood : Along State.step Kept {} actions)
    (hrun : run State.step {} actions = some s) :
    Refines s (actions.foldl Plain.step {}) := by
  have hall {s s' : State} {p : Plain} {actions : List Action} (h : Refines s p)
      (hgood : Along State.step Kept s actions) (hrun : run State.step s actions = some s') :
      Refines s' (actions.foldl Plain.step p) := by
    induction actions generalizing s p with
    | nil =>
      cases hrun
      exact h
    | cons a rest ih =>
      obtain ⟨u, hu, hrun⟩ := Option.bind_eq_some_iff.mp hrun
      exact ih (h.step hgood.1 hu) (hgood.2 u hu) hrun
  exact hall refines_init hgood hrun

/-- In every run in which no timer is collected while its function runs: nothing is misused, a valid
value stands for what it would have as a plain variable, two of them have one reference only if they
have nil, every key that is in use is somebody's, and no two owners have one key. -/
theorem values_of_run (hgood : Along State.step Kept {} actions)
    (hrun : run State.step {} actions = some s) :
    s.table.misused = false ∧
    (∀ i, (s.values i).isValid = true → s.table.lua_rawgeti (s.values i).ref =
      (actions.foldl Plain.step {}).held (.value i)) ∧
    (∀ i j, (s.values i).isValid = true → (s.values j).isValid = true →
      (s.values i).ref = (s.values j).ref →
        i = j ∨ (actions.foldl Plain.step {}).held (.value i) = none) ∧
    (∀ key, (s.table.find key).isSome → ∃ o, s.slot o = some key) ∧
    ∀ o o' key, s.slot o = some key → s.slot o' = some key → o = o' := by
  have h := refines_of_run hgood hrun
  have hslot {i : ℕ} (hi : (s.values i).isValid = true) :
      s.slot (.value i) = slotOf (s.values i).ref := LuaValue.slot_of_isValid hi
  refine ⟨h.serves.safe, ?_, ?_, ?_, ?_⟩
  · intro i hi
    exact h.serves.lua_rawgeti (hslot hi)
  · intro i j hi hj hsame
    cases hkey : slotOf (s.values i).ref with
    | none =>
      right
      exact h.serves.held_of_none ((hslot hi).trans hkey)
    | some key =>
      left
      have howner : Owner.value i = .value j :=
        h.serves.owned.apart ((hslot hi).trans hkey) ((hslot hj).trans (hsame ▸ hkey))
      exact Owner.value.inj howner
  · intro key hkey
    exact h.serves.owned.owner hkey
  · intro o o' key ho ho'
    exact h.serves.owned.apart ho ho'

/-- A value is copied and moved, its key goes to another one, and a timer fires and is stopped. -/
theorem values_of_run_keys : ∃ s, run State.step {} [.construct 0 (some 7) 3, .copy 1 0 4,
      .move 2 0, .destroy 2, .construct 0 (some 8) 3, .timer 0 true 5 6 9 10, .timeout 0 4 11,
      .stopTimer 0, .returned 0, .destroy 4, .collect 0] = some s ∧
    s.table.lua_rawgeti (s.values 1).ref = some 7 ∧ s.table.lua_rawgeti (s.values 0).ref = some 8 ∧
    s.table.misused = false := by
  have hgood : Along State.step Kept {} [.construct 0 (some 7) 3, .copy 1 0 4,
      .move 2 0, .destroy 2, .construct 0 (some 8) 3, .timer 0 true 5 6 9 10, .timeout 0 4 11,
      .stopTimer 0, .returned 0, .destroy 4, .collect 0] := by decide
  obtain ⟨s, hrun, h0, h1⟩ : ∃ s, run State.step {} [.construct 0 (some 7) 3, .copy 1 0 4,
      .move 2 0, .destroy 2, .construct 0 (some 8) 3, .timer 0 true 5 6 9 10, .timeout 0 4 11,
      .stopTimer 0, .returned 0, .destroy 4, .collect 0] = some s ∧
      (s.values 0).isValid = true ∧ (s.values 1).isValid = true := ⟨_, rfl, rfl, rfl⟩
  obtain ⟨hsafe, hvalues, -⟩ := values_of_run hgood hrun
  exact ⟨s, hrun, hvalues 1 h1, hvalues 0 h0, hsafe⟩

/-- A function that stops its timer and lets it be collected returns to what is not there. -/
example : ∃ s, run State.step {} [.timer 0 true 5 6 1 2, .timeout 0 0 3, .stopTimer 0, .collect 0,
    .returned 0] = some s ∧ s.table.misused = true :=
  ⟨_, rfl, rfl⟩

/-- In every such run a timer that is active cannot be collected: the registry has its userdata. And
what it calls when its time has come is the function that it was made with. -/
theorem anchored_of_run (hgood : Along State.step Kept {} actions)
    (hrun : run State.step {} actions = some s) {t : ℕ} {timer : Timer}
    (ht : s.timers t = some timer) (hactive : timer.active = true) :
    (∃ key, s.slot (.timer t) = some key ∧ s.table.find key = some timer.userdata) ∧
    s.collect t = none ∧
    ∀ i key s', s.timeout t i key = some s' →
      s'.table.lua_rawgeti (s'.values i).ref = some timer.function := by
  have h := refines_of_run hgood hrun
  obtain ⟨hself, hcallback⟩ := (h.timed.good ht).active hactive
  obtain ⟨key, hslot, hkey⟩ : ∃ key, s.slot (.timer t) = some key ∧
      s.table.find key = some timer.userdata := by
    rw [← h.serves.found_eq] at hself
    exact Option.bind_eq_some_iff.mp hself
  refine ⟨⟨key, hslot, hkey⟩, ?_, ?_⟩
  · have hmem := Assoc.mem_of_lookup hkey
    have hused : ¬ s.table.cells.all (fun e => e.2 ≠ timer.userdata) = true := by
      intro hall
      have hother := List.all_eq_true.mp hall _ hmem
      simp at hother
    rw [State.collect, ht]
    exact if_neg hused
  · intro i key s' hs'
    have hcalled := h.timeout hs'
    apply hcalled.serves.lua_rawgeti_value
    rw [Plain.step, ← hcallback]
    exact Function.update_self ..

/-- A repeating timer between two of its calls. -/
theorem anchored_of_run_each : ∃ s timer, run State.step {} [.timer 0 false 5 6 1 2,
      .timeout 0 0 3, .returned 0, .destroy 0] = some s ∧ s.timers 0 = some timer ∧
    s.collect 0 = none ∧
    ∀ i key s', s.timeout 0 i key = some s' →
      s'.table.lua_rawgeti (s'.values i).ref = some timer.function := by
  have hgood : Along State.step Kept {} [.timer 0 false 5 6 1 2, .timeout 0 0 3, .returned 0,
      .destroy 0] := by decide
  obtain ⟨s, timer, hrun, ht, hactive⟩ : ∃ s timer, run State.step {} [.timer 0 false 5 6 1 2,
      .timeout 0 0 3, .returned 0, .destroy 0] = some s ∧ s.timers 0 = some timer ∧
      timer.active = true := ⟨_, _, rfl, rfl, rfl⟩
  obtain ⟨-, hcollect, hcalls⟩ := anchored_of_run hgood hrun ht hactive
  exact ⟨s, timer, hrun, ht, hcollect, hcalls⟩

end Runs

end Radapter.Registry
