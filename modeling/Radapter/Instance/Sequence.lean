import Radapter.Fibers.Frames
import Radapter.Instance.Shutdown

/-!
# The order of a shutdown

What holds of an instance in every state: how the flags, the posted calls and the timer go together,
and where `Shutdown` is while it is under way.
-/

namespace Radapter.Instance

open Library Fibers

/-! ## The pool -/

/-- What holds of the fiber pool and of the caller of `Shutdown`. That cannot be left before
`Shutdown` returns, so its fiber is not over; and the event loop, when it is the caller, takes no
turn. -/
structure Held (d : Impl) : Prop where
  sound : Sound d.fibers
  noted : Noted d.fibers
  caller : d.sequence.underWay = true → ∀ f n, d.caller = some (f, n) →
    f < d.fibers.created ∧ 0 < n ∧ n ≤ d.fibers.depth f
  gone : d.stopping = .tearing → d.fibers.Gone
  loop : d.stopping = .tearing → ¬ (d.sequence.underWay = true ∧ d.caller = none)

/-- How the flags go together with what is posted. The last four are the ones that a shutdown rests
on: `ShutdownDone` is emitted or will be. -/
structure Flagged (d : Impl) : Prop where
  shutdown : d.shutdown = true ↔ d.sequence ≠ .notCalled
  idle : 0 < d.idle → d.shutdown = true
  armed : d.shutdownIdleArmed = true → d.shutdown = true
  timer : d.timer = true → d.sequence = .returned
  done : d.shutdownDone = true → d.sequence = .returned
  stopping : d.stopping ≠ .no → d.shutdownIdleArmed = true
  stops : d.log.count .Stop = if d.shutdownIdleArmed then 1 else 0
  dones : d.log.count .ShutdownDone = if d.shutdownDone then 1 else 0
  waits : d.sequence = .returned → d.timer = true ∨ d.shutdownDone = true
  wakes : d.sequence = .returned → d.workers = [] → 0 < d.idle ∨ d.shutdownIdleArmed = true
  ends : d.shutdownIdleArmed = true → d.stopping ≠ .no ∨ d.shutdownDone = true

section Steps

variable {d t : Impl}

/-- The caller is as deep as when it called, whatever else the pool does. -/
theorem Held.fibers (hd : Held d) {a : Fibers.Action} {fibers : FiberPool}
    (h : Fibers.step d.fibers a = some fibers)
    (hleave : ∀ e, a = .leave e → ¬ d.inShutdown)
    (hgone : d.stopping = .tearing → (a = .Run → d.fibers.stepping ≠ none) ∧ a ≠ .dispatch) :
    Held { d with fibers } where
  sound := hd.sound.step h
  noted := hd.noted.step (hd.sound.move h)
  caller := by
    intro hway f n hcaller
    obtain ⟨hf, hn, hle⟩ := hd.caller hway f n hcaller
    obtain ⟨hf', hle' | ⟨⟨e, he⟩, hcurrent, hle'⟩⟩ :=
      hd.sound.depth_step h hf (Nat.lt_of_lt_of_le hn hle)
    · exact ⟨hf', hn, hle.trans hle'⟩
    · refine ⟨hf', hn, ?_⟩
      have hne : n ≠ d.fibers.depth f := by
        rintro rfl
        refine hleave e he ⟨hway, ?_⟩
        rw [hcaller, hcurrent]
        rfl
      show n ≤ fibers.depth f
      omega
  gone := by
    intro htearing
    obtain ⟨hrun, hdispatch⟩ := hgone htearing
    exact (hd.gone htearing).step h hrun hdispatch
  loop := hd.loop

/-- A handler is a closure that is given to the pool. -/
theorem Held.run (hd : Held d) (hcontrol : d.inShutdown) :
    Held { d with fibers := d.fibers.Run } := by
  refine hd.fibers (a := .Run) rfl (fun e he => by simp at he) (fun htearing => ?_)
  refine ⟨fun _ hidle => hd.loop htearing ⟨hcontrol.1, ?_⟩, by simp⟩
  rw [← hcontrol.2]
  simp [FiberPool.Current, hidle]

/-- `Shutdown` is called by the event loop or by a closure. -/
theorem Held.shutdown (hd : Held d) (hf : Flagged d) : Held d.Shutdown := by
  unfold Impl.Shutdown
  split
  · exact hd
  · next hnot =>
    -- Nothing is torn down before the shutdown.
    have hstopping : d.stopping = .no := by
      by_contra hne
      exact hnot (hf.armed (hf.stopping hne))
    refine ⟨hd.sound, hd.noted, ?_, fun h => ?_, fun h => ?_⟩
    · intro _ f n hcaller
      obtain ⟨g, hg, hpair⟩ := Option.map_eq_some_iff.mp hcaller
      cases hpair
      obtain ⟨hcreated, hdepth⟩ := hd.sound.depth_current hg
      exact ⟨hcreated, hdepth, Nat.le_refl _⟩
    · rw [hstopping] at h
      exact absurd h (by decide)
    · rw [hstopping] at h
      exact absurd h (by decide)

/-! ## What a step can do -/

/-- The pool takes a step by itself. -/
theorem fiber_cases {a : Fibers.Action} (h : step d (.fiber a) = some t) :
    d.admits a ∧ ∃ fibers, Fibers.step d.fibers a = some fibers ∧ t = { d with fibers } := by
  obtain ⟨hadmits, h⟩ := Option.ite_none_right_eq_some.mp h
  obtain ⟨fibers, hstep, rfl⟩ := Option.map_eq_some_iff.mp h
  exact ⟨hadmits, fibers, hstep, rfl⟩

/-- The pool is stopped when the event loop of `Stop` is left. -/
theorem stop_cases {order : List FiberId} (h : step d (.stop order) = some t) :
    d.loopFree ∧ d.stopping = .waiting ∧ ∃ fibers,
      Fibers.step d.fibers (.Stop order) = some fibers ∧
        t = { d with fibers, stopping := .tearing } := by
  obtain ⟨⟨hfree, hwaiting⟩, h⟩ := Option.ite_none_right_eq_some.mp h
  obtain ⟨fibers, hstep, rfl⟩ := Option.map_eq_some_iff.mp h
  exact ⟨hfree, hwaiting, fibers, hstep, rfl⟩

/-- A handler is registered while no handlers are called. -/
theorem onShutdown_cases (h : step d .onShutdown = some t) :
    (∀ rest, d.sequence ≠ .handlers rest) ∧ t = d.onShutdown := by
  unfold step at h
  cases hsequence : d.sequence with
  | handlers rest => simp [hsequence] at h
  | notCalled => exact ⟨by simp, by simpa [hsequence] using h.symm⟩
  | warning => exact ⟨by simp, by simpa [hsequence] using h.symm⟩
  | request rest => exact ⟨by simp, by simpa [hsequence] using h.symm⟩
  | returned => exact ⟨by simp, by simpa [hsequence] using h.symm⟩

/-- `Shutdown` goes on. -/
inductive Proceeds (d : Impl) : Impl → Prop where
  | handlers (hsequence : d.sequence = .warning) :
      Proceeds d { d with sequence := .handlers d.shutdownHandlers }
  | handler (h : HandlerId) (rest : List HandlerId)
      (hsequence : d.sequence = .handlers (h :: rest)) :
      Proceeds d { d.note (.handler h d.fibers.given) with
        fibers := d.fibers.Run, sequence := .handlers rest }
  | request (hsequence : d.sequence = .handlers []) :
      Proceeds d { d with shutdownHandlers := [], sequence := .request d.workers }
  | worker (w : WorkerId) (rest : List WorkerId) (hsequence : d.sequence = .request (w :: rest)) :
      Proceeds d { d.Destroy w with sequence := .request rest }
  | timer (hsequence : d.sequence = .request []) :
      Proceeds d { d with
        timer := true
        idle := if d.workers = [] then d.idle + 1 else d.idle
        sequence := .returned }

/-- `Shutdown` goes on only when it has the control, and in one of the ways given. -/
theorem proceed_cases (h : step d .proceed = some t) : d.inShutdown ∧ Proceeds d t := by
  obtain ⟨hcontrol, h⟩ := Option.ite_none_right_eq_some.mp h
  refine ⟨hcontrol, ?_⟩
  unfold Impl.proceed at h
  split at h
  · next hsequence =>
    obtain rfl := Option.some.inj h
    exact .handlers hsequence
  · next k rest hsequence =>
    obtain rfl := Option.some.inj h
    exact .handler k rest hsequence
  · next hsequence =>
    obtain rfl := Option.some.inj h
    exact .request hsequence
  · next w rest hsequence =>
    obtain rfl := Option.some.inj h
    exact .worker w rest hsequence
  · next hsequence =>
    obtain rfl := Option.some.inj h
    exact .timer hsequence
  · simp at h

/-! ## Steps -/

/-- What holds of the pool and the caller does not depend on the rest. -/
theorem Held.congr (hd : Held d) (hfibers : t.fibers = d.fibers) (hcaller : t.caller = d.caller)
    (hway : t.sequence.underWay = true → d.sequence.underWay = true)
    (hstopping : t.stopping = .tearing → d.stopping = .tearing) : Held t where
  sound := hfibers ▸ hd.sound
  noted := hfibers ▸ hd.noted
  caller := by
    intro h f n hf
    rw [hfibers]
    exact hd.caller (hway h) f n (hcaller ▸ hf)
  gone := fun h => hfibers ▸ hd.gone (hstopping h)
  loop := fun h hboth => hd.loop (hstopping h) ⟨hway hboth.1, hcaller ▸ hboth.2⟩

/-- It holds on while `Shutdown` goes on. -/
theorem Held.proceeds (hd : Held d) (hcontrol : d.inShutdown) (h : Proceeds d t) : Held t := by
  have hway := hcontrol.1
  cases h with
  | handlers hsequence => exact hd.congr rfl rfl (fun _ => hway) id
  | handler k rest hsequence => exact (hd.run hcontrol).congr rfl rfl (fun _ => hway) id
  | request hsequence => exact hd.congr rfl rfl (fun _ => hway) id
  | worker w rest hsequence => exact hd.congr rfl rfl (fun _ => hway) id
  | timer hsequence => exact hd.congr rfl rfl (fun _ => hway) id

/-- A worker that is destroyed does not end `Shutdown`. -/
theorem underWay_disconnect (w : WorkerId) (sequence : Sequence) :
    (sequence.disconnect w).underWay = sequence.underWay := by
  cases sequence with
  | notCalled => rfl
  | warning => rfl
  | handlers rest => rfl
  | request rest => rfl
  | returned => rfl

/-- Every step keeps hold of the pool. -/
theorem Held.step (hd : Held d) (hf : Flagged d) {a : Action} (h : Instance.step d a = some t) :
    Held t := by
  cases a with
  | fiber a =>
    obtain ⟨hadmits, fibers, hstep, rfl⟩ := fiber_cases h
    refine hd.fibers hstep ?_ ?_
    · rintro e rfl
      exact hadmits
    · intro htearing
      refine ⟨?_, ?_⟩
      · rintro rfl
        exact hadmits.resolve_right (fun hne => hne htearing)
      · rintro rfl
        exact hadmits.2.1 htearing
  | WorkerCreated =>
    obtain rfl := Option.some.inj h
    exact hd.congr rfl rfl id id
  | deleteLater w =>
    obtain ⟨-, rfl⟩ := of_guarded h
    exact hd.congr rfl rfl id id
  | onShutdown =>
    obtain ⟨-, rfl⟩ := onShutdown_cases h
    exact hd.congr rfl rfl id id
  | Shutdown =>
    obtain rfl := Option.some.inj h
    exact hd.shutdown hf
  | proceed =>
    obtain ⟨hcontrol, h⟩ := proceed_cases h
    exact hd.proceeds hcontrol h
  | destroyed w =>
    obtain ⟨-, rfl⟩ := of_guarded h
    exact hd.congr rfl rfl (fun h => (underWay_disconnect w d.sequence).symm.trans h) id
  | timeout =>
    obtain ⟨-, rfl⟩ := of_guarded h
    unfold Impl.emitDone
    split
    · exact hd.congr rfl rfl id id
    · exact hd.congr rfl rfl id id
  | idle =>
    obtain ⟨-, rfl⟩ := of_guarded h
    unfold Impl.emitDoneWhenIdle
    split
    · exact hd.congr rfl rfl id id
    · exact hd.congr rfl rfl id (fun h => absurd h (by simp))
  | stop order =>
    obtain ⟨hfree, hwaiting, fibers, hstep, rfl⟩ := stop_cases h
    have hheld : Held { d with fibers } := by
      refine hd.fibers hstep (fun e he => by simp at he) (fun htearing => ?_)
      rw [hwaiting] at htearing
      exact absurd htearing (by decide)
    exact ⟨hheld.sound, hheld.noted, hheld.caller, fun _ => gone_stop hstep, fun _ => hfree.2.2⟩
  | done =>
    obtain ⟨-, rfl⟩ := of_guarded h
    unfold Impl.emitDone
    split
    · exact hd.congr rfl rfl id (fun h => absurd h (by simp))
    · exact hd.congr rfl rfl id (fun h => absurd h (by simp))

/-- When all stragglers are torn down, `Shutdown` has returned: its caller is over. -/
theorem Held.returned (hd : Held d) (hf : Flagged d) (htearing : d.stopping = .tearing)
    (hstepping : d.fibers.stepping = none) : d.sequence = .returned := by
  have hcalled : d.sequence ≠ .notCalled := by
    refine hf.shutdown.mp (hf.armed (hf.stopping ?_))
    rw [htearing]
    decide
  by_contra hreturned
  have hway : d.sequence.underWay = true := by
    cases hsequence : d.sequence with
    | notCalled => exact absurd hsequence hcalled
    | warning => rfl
    | handlers rest => rfl
    | request rest => rfl
    | returned => exact absurd hsequence hreturned
  cases hcaller : d.caller with
  | none => exact hd.loop htearing ⟨hway, hcaller⟩
  | some p =>
    obtain ⟨hcreated, hpos, hle⟩ := hd.caller hway p.1 p.2 hcaller
    have hframes := hd.sound.frames_of_gone (hd.gone htearing) hstepping hcreated
    rw [FiberPool.depth, hframes, List.length_nil] at hle
    omega

/-- Other events are not counted. -/
theorem count_note (d : Impl) {event other : Note} (hne : other ≠ event) :
    (d.note other).log.count event = d.log.count event := by
  rw [Impl.note, List.count_append, List.count_singleton, if_neg (by simpa using hne), Nat.add_zero]

/-- `ShutdownDone` is emitted, unless it was. -/
theorem Flagged.emitDone (hd : Flagged d) (hreturned : d.sequence = .returned) :
    Flagged d.emitDone ∧ d.emitDone.shutdownDone = true ∧ d.emitDone.sequence = .returned ∧
      d.emitDone.workers = d.workers ∧ d.emitDone.idle = d.idle ∧
      d.emitDone.shutdownIdleArmed = d.shutdownIdleArmed := by
  unfold Impl.emitDone
  split
  · next hdone => exact ⟨hd, hdone, hreturned, rfl, rfl, rfl⟩
  · next hdone =>
    refine ⟨{ hd with
      done := fun _ => hreturned
      stops := ?_
      dones := ?_
      waits := fun _ => Or.inr rfl
      ends := fun _ => Or.inr rfl }, rfl, hreturned, rfl, rfl, rfl⟩
    · exact (count_note d (by simp)).trans hd.stops
    · simp [Impl.note, List.count_append, hd.dones, hdone]

/-- `Shutdown` goes on, but does not return. -/
theorem Flagged.goOn (hd : Flagged d) (hway : d.sequence.underWay = true) {sequence : Sequence}
    (hway' : sequence.underWay = true) {events : List Note} (hstop : .Stop ∉ events)
    (hdone : .ShutdownDone ∉ events) : Flagged { d with sequence, log := d.log ++ events } := by
  have hreturned {sequence : Sequence} (hway : sequence.underWay = true) :
      sequence ≠ .returned := by
    rintro rfl
    simp [Sequence.underWay] at hway
  have hcalled {sequence : Sequence} (hway : sequence.underWay = true) :
      sequence ≠ .notCalled := by
    rintro rfl
    simp [Sequence.underWay] at hway
  refine { hd with
    shutdown := iff_of_true (hd.shutdown.mpr (hcalled hway)) (hcalled hway')
    timer := fun h => absurd (hd.timer h) (hreturned hway)
    done := fun h => absurd (hd.done h) (hreturned hway)
    stops := ?_
    dones := ?_
    waits := fun h => absurd h (hreturned hway')
    wakes := fun h => absurd h (hreturned hway') }
  · rw [List.count_append, List.count_eq_zero_of_not_mem hstop, Nat.add_zero]
    exact hd.stops
  · rw [List.count_append, List.count_eq_zero_of_not_mem hdone, Nat.add_zero]
    exact hd.dones

/-- The flags go together while `Shutdown` goes on. -/
theorem Flagged.proceeds (hd : Flagged d) (hway : d.sequence.underWay = true) (h : Proceeds d t) :
    Flagged t := by
  cases h with
  | handlers hsequence =>
    have hon : Flagged { d with
        sequence := .handlers d.shutdownHandlers, log := d.log ++ [] } :=
      hd.goOn hway rfl (by simp) (by simp)
    rw [List.append_nil] at hon
    exact { hon with }
  | handler k rest hsequence =>
    have hon : Flagged { d with
        sequence := .handlers rest, log := d.log ++ [.handler k d.fibers.given] } :=
      hd.goOn hway rfl (by simp) (by simp)
    exact { hon with }
  | request hsequence =>
    have hon : Flagged { d with sequence := .request d.workers, log := d.log ++ [] } :=
      hd.goOn hway rfl (by simp) (by simp)
    rw [List.append_nil] at hon
    exact { hon with }
  | worker w rest hsequence =>
    have hon : Flagged { d with sequence := .request rest, log := d.log ++ [.Destroy w] } :=
      hd.goOn hway rfl (by simp) (by simp)
    exact { hon with }
  | timer hsequence =>
    have hshutdown := hd.shutdown.mpr (by simp [hsequence])
    refine { hd with
      shutdown := ?_
      idle := fun _ => hshutdown
      timer := fun _ => rfl
      done := fun _ => rfl
      waits := fun _ => Or.inl rfl
      wakes := ?_ }
    · simpa using hshutdown
    · intro _ hworkers
      have hworkers : d.workers = [] := hworkers
      simp [hworkers]

/-- Every step keeps the flags in order. -/
theorem Flagged.step (hd : Flagged d) (hheld : Held d) {a : Action}
    (h : Instance.step d a = some t) : Flagged t := by
  cases a with
  | fiber a =>
    obtain ⟨-, fibers, -, rfl⟩ := fiber_cases h
    exact { hd with }
  | WorkerCreated =>
    obtain rfl := Option.some.inj h
    exact { hd with wakes := fun _ hworkers => by simp [Impl.WorkerCreated] at hworkers }
  | deleteLater w =>
    obtain ⟨-, rfl⟩ := of_guarded h
    exact { hd with }
  | onShutdown =>
    obtain ⟨-, rfl⟩ := onShutdown_cases h
    exact { hd with }
  | Shutdown =>
    obtain rfl := Option.some.inj h
    unfold Impl.Shutdown
    split
    · exact hd
    · next hnot =>
      have hsequence : d.sequence = .notCalled := by
        by_contra hne
        exact hnot (hd.shutdown.mpr hne)
      refine { hd with
        shutdown := by simp
        idle := fun _ => rfl
        armed := fun _ => rfl
        timer := ?_
        done := ?_
        waits := by simp
        wakes := by simp }
      · intro htimer
        have hreturned := hd.timer htimer
        simp [hsequence] at hreturned
      · intro hdone
        have hreturned := hd.done hdone
        simp [hsequence] at hreturned
  | proceed =>
    obtain ⟨hcontrol, h⟩ := proceed_cases h
    exact hd.proceeds hcontrol.1 h
  | destroyed w =>
    obtain ⟨-, rfl⟩ := of_guarded h
    have hreturned (sequence : Sequence) :
        sequence.disconnect w = .returned ↔ sequence = .returned := by
      cases sequence <;> simp [Sequence.disconnect]
    have hcalled (sequence : Sequence) :
        sequence.disconnect w = .notCalled ↔ sequence = .notCalled := by
      cases sequence <;> simp [Sequence.disconnect]
    refine { hd with
      shutdown := ?_
      idle := ?_
      timer := ?_
      done := ?_
      waits := ?_
      wakes := ?_ }
    · exact hd.shutdown.trans (not_congr (hcalled d.sequence).symm)
    · intro hpos
      by_cases hshutdown : d.shutdown = true
      · exact hshutdown
      · have hpos : 0 < d.idle := by simpa [Impl.destroyed, hshutdown] using hpos
        exact hd.idle hpos
    · exact fun h => (hreturned _).mpr (hd.timer h)
    · exact fun h => (hreturned _).mpr (hd.done h)
    · exact fun h => hd.waits ((hreturned _).mp h)
    · intro h hworkers
      have hshutdown := hd.shutdown.mpr (by simp [(hreturned _).mp h])
      have hempty : d.workers.erase w = [] := hworkers
      refine Or.inl ?_
      simp [Impl.destroyed, hempty, hshutdown]
  | timeout =>
    obtain ⟨⟨-, htimer⟩, rfl⟩ := of_guarded h
    obtain ⟨hemit, hdone, hreturned, -, -, -⟩ := hd.emitDone (hd.timer htimer)
    exact { hemit with
      timer := fun h => absurd h (by simp)
      waits := fun _ => Or.inr hdone }
  | idle =>
    obtain ⟨⟨-, hpos⟩, rfl⟩ := of_guarded h
    have hshutdown := hd.idle hpos
    unfold Impl.emitDoneWhenIdle
    split
    · next harmed =>
      have harmed : d.shutdownIdleArmed = true := harmed
      exact { hd with
        idle := fun _ => hshutdown
        wakes := fun _ _ => Or.inr harmed }
    · next harmed =>
      have harmed : ¬ d.shutdownIdleArmed = true := harmed
      refine { hd with
        idle := fun _ => hshutdown
        armed := fun _ => hshutdown
        stopping := fun _ => rfl
        stops := ?_
        dones := ?_
        wakes := fun _ _ => Or.inr rfl
        ends := fun _ => Or.inl (by simp) }
      · simp [Impl.note, List.count_append, hd.stops, harmed]
      · exact (count_note d (by simp)).trans hd.dones
  | stop order =>
    obtain ⟨-, hwaiting, fibers, -, rfl⟩ := stop_cases h
    have harmed := hd.stopping (by simp [hwaiting])
    exact { hd with stopping := fun _ => harmed, ends := fun _ => Or.inl (by simp) }
  | done =>
    obtain ⟨⟨htearing, hstepping⟩, rfl⟩ := of_guarded h
    obtain ⟨hemit, hdone, -⟩ := hd.emitDone (hheld.returned hd htearing hstepping)
    exact { hemit with
      stopping := fun h => absurd rfl h
      ends := fun _ => Or.inr hdone }

end Steps

end Radapter.Instance
