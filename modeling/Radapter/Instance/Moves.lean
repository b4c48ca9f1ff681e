import Radapter.Instance.Sequence

/-!
# The steps of a shutdown

`Shutdown` calls handlers and asks workers; workers come and go. All other steps are aside: they
leave the handlers and the workers as they are.
-/

namespace Radapter.Instance

open Library Fibers

variable {d t : Impl}

/-- The handler of a call. -/
def Note.called : Note → Option HandlerId
  | .handler h _ => some h
  | _ => none

/-- The worker of a request. -/
def Note.requested : Note → Option WorkerId
  | .Destroy w => some w
  | _ => none

/-- The handlers that were called, in order. -/
def Impl.called (d : Impl) : List HandlerId := d.log.filterMap Note.called

/-- The workers that `ShutdownRequest` has reached, in order. -/
def Impl.requested (d : Impl) : List WorkerId := d.log.filterMap Note.requested

/-- A new event adds the handler that it calls. -/
@[simp] theorem called_note (d : Impl) (event : Note) :
    (d.note event).called = d.called ++ event.called.toList := by
  cases hevent : event.called with
  | none => simp [Impl.called, Impl.note, hevent]
  | some h => simp [Impl.called, Impl.note, hevent]

/-- A new event adds the worker that it asks. -/
@[simp] theorem requested_note (d : Impl) (event : Note) :
    (d.note event).requested = d.requested ++ event.requested.toList := by
  cases hevent : event.requested with
  | none => simp [Impl.requested, Impl.note, hevent]
  | some w => simp [Impl.requested, Impl.note, hevent]

/-- A step that has nothing to do with the handlers and the workers. It may call
`emitDoneWhenIdle`, but does not post it. -/
structure Aside (d t : Impl) : Prop where
  shutdown : t.shutdown = d.shutdown
  sequence : t.sequence = d.sequence
  workers : t.workers = d.workers
  created : t.created = d.created
  leaving : d.leaving ⊆ t.leaving
  called : t.called = d.called
  requested : t.requested = d.requested
  idle : 0 < t.idle ∨ t.shutdownIdleArmed = true → 0 < d.idle ∨ d.shutdownIdleArmed = true
  given : d.fibers.given ≤ t.fibers.given
  calls : ∀ h c, .handler h c ∈ t.log → .handler h c ∈ d.log

/-- What a step can do. -/
inductive Move (d : Impl) : Impl → Prop where
  | Shutdown (hnot : d.shutdown = false) : Move d d.Shutdown
  | proceed {t : Impl} (h : Proceeds d t) : Move d t
  | destroyed (w : WorkerId) : Move d (d.destroyed w)
  | created : Move d d.WorkerCreated
  | aside {t : Impl} (h : Aside d t) : Move d t

/-- A step that does nothing is aside. -/
theorem Aside.refl (d : Impl) : Aside d d :=
  ⟨rfl, rfl, rfl, rfl, subset_rfl, rfl, rfl, id, Nat.le_refl _, fun _ _ => id⟩

/-- What is noted aside is no call and no request. -/
theorem Aside.note (d : Impl) (event : Note) (hcalled : event.called = none)
    (hrequested : event.requested = none) : Aside d (d.note event) := by
  have hlog (h : HandlerId) (c : ClosureId) : .handler h c ∈ (d.note event).log →
      .handler h c ∈ d.log := by
    intro hmem
    rcases List.mem_append.mp hmem with hmem | hmem
    · exact hmem
    · rw [← List.mem_singleton.mp hmem] at hcalled
      simp [Note.called] at hcalled
  refine ⟨rfl, rfl, rfl, rfl, subset_rfl, ?_, ?_, id, Nat.le_refl _, hlog⟩
  · simp [hcalled]
  · simp [hrequested]

/-- To emit `ShutdownDone` calls no handler and asks no worker. -/
theorem aside_emitDone (d : Impl) : Aside d d.emitDone := by
  unfold Impl.emitDone
  split
  · exact .refl d
  · have haside := Aside.note d .ShutdownDone rfl rfl
    exact { haside with }

/-- The pool gives no number twice. -/
theorem Held.given_le (hd : Held d) {a : Fibers.Action} {fibers : FiberPool}
    (h : Fibers.step d.fibers a = some fibers) : d.fibers.given ≤ fibers.given := by
  rw [(hd.noted.lawfulStep (hd.sound.move h)).given]
  split <;> omega

/-- Every step of an instance makes one of the moves. -/
theorem Held.move (hd : Held d) {a : Action} (h : Instance.step d a = some t) :
    Move d t := by
  have hrefl := Aside.refl d
  cases a with
  | fiber a =>
    obtain ⟨-, fibers, hstep, rfl⟩ := fiber_cases h
    exact .aside { hrefl with given := hd.given_le hstep }
  | WorkerCreated =>
    obtain rfl := Option.some.inj h
    exact .created
  | deleteLater w =>
    obtain ⟨-, rfl⟩ := of_guarded h
    exact .aside { hrefl with leaving := Finset.subset_insert w d.leaving }
  | onShutdown =>
    obtain ⟨-, rfl⟩ := onShutdown_cases h
    exact .aside { hrefl with }
  | Shutdown =>
    obtain rfl := Option.some.inj h
    cases hshutdown : d.shutdown with
    | false => exact .Shutdown hshutdown
    | true =>
      rw [Impl.Shutdown, if_pos hshutdown]
      exact .aside hrefl
  | proceed => exact .proceed (proceed_cases h).2
  | destroyed w =>
    obtain ⟨-, rfl⟩ := of_guarded h
    exact .destroyed w
  | timeout =>
    obtain ⟨-, rfl⟩ := of_guarded h
    have haside := aside_emitDone d
    exact .aside { haside with }
  | idle =>
    obtain ⟨⟨-, hpos⟩, rfl⟩ := of_guarded h
    unfold Impl.emitDoneWhenIdle
    split
    · exact .aside { hrefl with idle := fun _ => Or.inl hpos }
    · have haside := Aside.note d .Stop rfl rfl
      exact .aside { haside with idle := fun _ => Or.inl hpos }
  | stop order =>
    obtain ⟨-, -, fibers, hstep, rfl⟩ := stop_cases h
    exact .aside { hrefl with given := hd.given_le hstep }
  | done =>
    obtain ⟨-, rfl⟩ := of_guarded h
    have haside := aside_emitDone d
    exact .aside { haside with }

end Radapter.Instance
