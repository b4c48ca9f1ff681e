import Mathlib.Data.List.Nodup
import Radapter.Instance.Moves

/-!
# What a shutdown guarantees

`ShutdownDone` is emitted at most once, and as long as it is not there is something left that will
emit it. Every handler is called and every worker is asked to go, each of them once. When
`ShutdownDone` is emitted without the timer, the workers that `Shutdown` found are gone, and so is
every closure that was under way on a fiber.
-/

namespace Radapter.Instance

open Library Fibers

variable {d s t : Impl}

/-! ## Every state -/

/-- The handlers that are still to be called. -/
def Sequence.uncalled : Sequence → List HandlerId
  | .handlers rest => rest
  | _ => []

/-- The workers that are still to be asked. -/
def Sequence.unasked : Sequence → List WorkerId
  | .request rest => rest
  | _ => []

/-- The loop over the handlers has started. -/
def Sequence.calling : Sequence → Bool
  | .notCalled => false
  | .warning => false
  | _ => true

/-- `ShutdownRequest` has been emitted, in part at least. -/
def Sequence.asking : Sequence → Bool
  | .request _ => true
  | .returned => true
  | _ => false

/-- What holds of an instance in every state. -/
structure Orderly (d : Impl) : Prop where
  held : Held d
  flagged : Flagged d
  called : d.sequence.calling = false → d.called = []
  requested : d.sequence.asking = false → d.requested = []
  given : ∀ h c, .handler h c ∈ d.log → c < d.fibers.given
  workers : d.workers.Nodup
  known : ∀ w ∈ d.workers, w < d.created

/-- A new instance has called no handler and has asked no worker. -/
theorem orderly_new (pooledFibers : ℕ) : Orderly (.new pooledFibers) where
  held := by
    refine ⟨sound_new pooledFibers, ⟨rfl, ?_⟩, fun h => ?_, fun h => ?_, fun h => ?_⟩
    · intro before f after hsplit
      simp [Impl.new, FiberPool.new] at hsplit
    · simp [Impl.new, Sequence.underWay] at h
    · simp [Impl.new] at h
    · simp [Impl.new] at h
  flagged := by
    constructor <;> simp [Impl.new]
  called := fun _ => rfl
  requested := fun _ => rfl
  given := by simp [Impl.new]
  workers := List.nodup_nil
  known := by simp [Impl.new]

/-- A worker that is destroyed does not start the loop over the handlers. -/
theorem calling_disconnect (w : WorkerId) (sequence : Sequence) :
    (sequence.disconnect w).calling = sequence.calling := by
  cases sequence with
  | notCalled => rfl
  | warning => rfl
  | handlers rest => rfl
  | request rest => rfl
  | returned => rfl

/-- Before `Shutdown` is called the sequence has not started. -/
theorem Orderly.notCalled (hd : Orderly d) (hnot : d.shutdown = false) :
    d.sequence = .notCalled := by
  by_contra hne
  rw [hd.flagged.shutdown.mpr hne] at hnot
  exact absurd hnot (by decide)

/-- Nothing is called before the loop over the handlers. -/
theorem Orderly.called_step (hd : Orderly d) (h : Move d t) (hnot : t.sequence.calling = false) :
    t.called = [] := by
  cases h with
  | Shutdown hfirst =>
    rw [Impl.Shutdown, if_neg (by simp [hfirst])]
    exact hd.called (by rw [hd.notCalled hfirst]; rfl)
  | proceed h => cases h <;> simp [Sequence.calling] at hnot
  | destroyed w => exact hd.called ((calling_disconnect w d.sequence).symm.trans hnot)
  | created => exact hd.called hnot
  | aside h => exact h.called.trans (hd.called (h.sequence ▸ hnot))

/-- A worker that is destroyed does not begin or end the requests. -/
theorem asking_disconnect (w : WorkerId) (sequence : Sequence) :
    (sequence.disconnect w).asking = sequence.asking := by
  cases sequence with
  | notCalled => rfl
  | warning => rfl
  | handlers rest => rfl
  | request rest => rfl
  | returned => rfl

/-- No worker is asked before the handlers are called. -/
theorem Orderly.requested_step (hd : Orderly d) (h : Move d t) (hnot : t.sequence.asking = false) :
    t.requested = [] := by
  cases h with
  | Shutdown hfirst =>
    rw [Impl.Shutdown, if_neg (by simp [hfirst])]
    exact hd.requested (by rw [hd.notCalled hfirst]; rfl)
  | proceed h =>
    cases h with
    | handlers hsequence => exact hd.requested (by rw [hsequence]; rfl)
    | handler k rest hsequence =>
      show (d.note _).requested = []
      rw [requested_note, hd.requested (by rw [hsequence]; rfl)]
      rfl
    | request hsequence => simp [Sequence.asking] at hnot
    | worker w rest hsequence => simp [Sequence.asking] at hnot
    | timer hsequence => simp [Sequence.asking] at hnot
  | destroyed w => exact hd.requested ((asking_disconnect w d.sequence).symm.trans hnot)
  | created => exact hd.requested hnot
  | aside h => exact h.requested.trans (hd.requested (h.sequence ▸ hnot))

/-- A handler that is noted is one of the closures that the pool was given. -/
theorem Orderly.given_step (hd : Orderly d) (h : Move d t) :
    ∀ k c, .handler k c ∈ t.log → c < t.fibers.given := by
  intro k c hmem
  cases h with
  | Shutdown hnot =>
    rw [Impl.Shutdown, if_neg (by simp [hnot])] at hmem ⊢
    exact hd.given k c hmem
  | proceed h =>
    cases h with
    | handlers hsequence => exact hd.given k c hmem
    | handler k' rest hsequence =>
      have hlaw := hd.held.noted.lawfulStep (hd.held.sound.move (a := .Run) rfl)
      have hgiven : d.fibers.Run.given = d.fibers.given + 1 := hlaw.given
      have hmem : .handler k c ∈ d.log ++ [.handler k' d.fibers.given] := hmem
      show c < d.fibers.Run.given
      rw [hgiven]
      rcases List.mem_append.mp hmem with hmem | hmem
      · exact (hd.given k c hmem).trans (Nat.lt_succ_self _)
      · cases List.mem_singleton.mp hmem
        exact Nat.lt_succ_self _
    | request hsequence => exact hd.given k c hmem
    | worker w rest hsequence =>
      have hmem : .handler k c ∈ d.log ++ [.Destroy w] := hmem
      exact hd.given k c (by simpa using hmem)
    | timer hsequence => exact hd.given k c hmem
  | destroyed w => exact hd.given k c hmem
  | created => exact hd.given k c hmem
  | aside h => exact (hd.given k c (h.calls k c hmem)).trans_le h.given

/-- Workers keep their numbers. -/
theorem Orderly.workers_step (hd : Orderly d) (h : Move d t) :
    t.workers.Nodup ∧ ∀ w ∈ t.workers, w < t.created := by
  cases h with
  | Shutdown hnot =>
    rw [Impl.Shutdown, if_neg (by simp [hnot])]
    exact ⟨hd.workers, hd.known⟩
  | proceed h => cases h <;> exact ⟨hd.workers, hd.known⟩
  | destroyed w =>
    exact ⟨hd.workers.erase w, fun v hv => hd.known v (List.mem_of_mem_erase hv)⟩
  | created =>
    have hnew : d.created ∉ d.workers := fun h => Nat.lt_irrefl _ (hd.known _ h)
    refine ⟨?_, fun w hw => ?_⟩
    · exact List.nodup_append.mpr ⟨hd.workers, by simp, by
        intro w hw v hv
        rw [List.mem_singleton.mp hv]
        exact fun h => hnew (h ▸ hw)⟩
    · rcases List.mem_append.mp hw with hw | hw
      · exact (hd.known w hw).trans (Nat.lt_succ_self _)
      · rw [List.mem_singleton.mp hw]
        exact Nat.lt_succ_self _
  | aside h =>
    rw [h.workers, h.created]
    exact ⟨hd.workers, hd.known⟩

/-- Every step keeps an instance orderly. -/
theorem Orderly.step (hd : Orderly d) {a : Action} (h : Instance.step d a = some t) :
    Orderly t := by
  have hmove := hd.held.move h
  obtain ⟨hworkers, hknown⟩ := hd.workers_step hmove
  exact ⟨hd.held.step hd.flagged h, hd.flagged.step hd.held h, hd.called_step hmove,
    hd.requested_step hmove, hd.given_step hmove, hworkers, hknown⟩

/-- So does every run. -/
theorem orderly_of_run {pooledFibers : ℕ} {actions : List Action}
    (hrun : run step (.new pooledFibers) actions = some d) : Orderly d :=
  run_invariant_of_step (fun hd h => hd.step h) (orderly_new pooledFibers) hrun

/-- A closure makes two workers, registers a handler and calls `Shutdown`. -/
def shutdownCalled : List Action :=
  [.fiber .Run, .WorkerCreated, .WorkerCreated, .onShutdown]

/-- The handler returns at once, and so does the closure, when the workers were asked. They are
deleted, and the fiber pool is stopped. -/
def shutdownWhole : List Action :=
  [.proceed, .proceed, .fiber (.leave none), .proceed, .proceed, .proceed, .proceed,
    .fiber (.leave none), .destroyed 0, .destroyed 1, .idle, .stop []]

/-- In every run in which no handler is registered while the handlers are called, `ShutdownDone` is
emitted at most once and the fiber pool is stopped at most once. It is not emitted before `Shutdown`
has called the handlers and asked the workers. From then on, and as long as it is not emitted, the
timer runs; and when all workers are gone `emitDoneWhenIdle` is posted or waits for the fibers. -/
theorem shutdownDone_once (pooledFibers : ℕ) {actions : List Action}
    (hrun : run step (.new pooledFibers) actions = some d) :
    d.log.count .ShutdownDone ≤ 1 ∧ d.log.count .Stop ≤ 1 ∧
      (.ShutdownDone ∈ d.log → d.sequence = .returned) ∧
      (d.sequence = .returned → .ShutdownDone ∉ d.log →
        d.timer = true ∧ (d.workers = [] → 0 < d.idle ∨ d.stopping ≠ .no)) := by
  have hd := (orderly_of_run hrun).flagged
  have hdone : .ShutdownDone ∈ d.log ↔ d.shutdownDone = true := by
    rw [← List.count_pos_iff, hd.dones]
    split
    · next h => simp [h]
    · next h => simp [h]
  refine ⟨?_, ?_, fun h => hd.done (hdone.mp h), fun hreturned hnot => ?_⟩
  · rw [hd.dones]
    split <;> omega
  · rw [hd.stops]
    split <;> omega
  · have hnot : ¬ d.shutdownDone = true := fun h => hnot (hdone.mpr h)
    refine ⟨(hd.waits hreturned).resolve_right hnot, fun hempty => ?_⟩
    exact (hd.wakes hreturned hempty).imp_right (fun harmed => (hd.ends harmed).resolve_right hnot)

/-- A whole shutdown of two workers and a handler emits `ShutdownDone` once. -/
theorem shutdownDone_once_whole : ∃ d,
    run step (.new 8) (shutdownCalled ++ .Shutdown :: shutdownWhole) = some d ∧
      d.log.count .ShutdownDone ≤ 1 ∧ d.log.count .Stop ≤ 1 ∧
      (.ShutdownDone ∈ d.log → d.sequence = .returned) ∧
      (d.sequence = .returned → .ShutdownDone ∉ d.log →
        d.timer = true ∧ (d.workers = [] → 0 < d.idle ∨ d.stopping ≠ .no)) := by
  obtain ⟨d, hrun⟩ : ∃ d,
      run step (.new 8) (shutdownCalled ++ .Shutdown :: shutdownWhole) = some d := ⟨_, rfl⟩
  exact ⟨d, hrun, shutdownDone_once 8 hrun⟩

/-! ## Handlers -/

/-- A worker that is destroyed is no handler. -/
theorem uncalled_disconnect (w : WorkerId) (sequence : Sequence) :
    (sequence.disconnect w).uncalled = sequence.uncalled := by
  cases sequence with
  | notCalled => rfl
  | warning => rfl
  | handlers rest => rfl
  | request rest => rfl
  | returned => rfl

/-- A shutdown is not taken back. -/
theorem Move.shutdown (h : Move d t) (hshutdown : d.shutdown = true) : t.shutdown = true := by
  cases h with
  | Shutdown hnot => rw [Impl.Shutdown, if_pos hshutdown, hshutdown]
  | proceed h => cases h <;> exact hshutdown
  | destroyed w => exact hshutdown
  | created => exact hshutdown
  | aside h => exact h.shutdown.trans hshutdown

/-- The loop over the handlers is not taken back. -/
theorem Move.calling (h : Move d t) (hshutdown : d.shutdown = true)
    (hcalling : d.sequence.calling = true) : t.sequence.calling = true := by
  cases h with
  | Shutdown hnot => rwa [Impl.Shutdown, if_pos hshutdown]
  | proceed h => cases h <;> rfl
  | destroyed w => exact (calling_disconnect w d.sequence).trans hcalling
  | created => exact hcalling
  | aside h => exact h.sequence ▸ hcalling

/-- The handlers that were called and those that are still to be called stay the same. -/
theorem Move.handlers (h : Move d t) (hshutdown : d.shutdown = true)
    (hcalling : d.sequence.calling = true) :
    t.called ++ t.sequence.uncalled = d.called ++ d.sequence.uncalled := by
  cases h with
  | Shutdown hnot => rw [Impl.Shutdown, if_pos hshutdown]
  | proceed h =>
    cases h with
    | handlers hsequence => simp [hsequence, Sequence.calling] at hcalling
    | handler k rest hsequence =>
      rw [hsequence]
      show (d.note _).called ++ rest = _
      rw [called_note, List.append_assoc]
      rfl
    | request hsequence =>
      rw [hsequence]
      rfl
    | worker w rest hsequence =>
      rw [hsequence]
      show (d.note _).called ++ [] = _
      rw [called_note]
      simp [Note.called, Sequence.uncalled]
    | timer hsequence =>
      rw [hsequence]
      rfl
  | destroyed w =>
    show d.called ++ (d.sequence.disconnect w).uncalled = _
    rw [uncalled_disconnect]
  | created => rfl
  | aside h => rw [h.called, h.sequence]

/-- In every run in which no handler is registered while the handlers are called, `Shutdown` calls
the handlers that are registered when its loop over them starts, in their order and each of them
once, and no others. Each is a closure that the pool executes once, unless the fiber that called
`Shutdown` is torn down: then the pool drops it. -/
theorem handlers_once (pooledFibers : ℕ) {front back : List Action}
    (hfront : run step (.new pooledFibers) front = some s) (hsequence : s.sequence = .warning)
    (hback : run step s (.proceed :: back) = some d) :
    d.called ++ d.sequence.uncalled = s.shutdownHandlers ∧
      ∀ h c, .handler h c ∈ d.log →
        (d.fibers.executions c = 1 ∧ .dropped c ∉ d.fibers.log) ∨
          (d.fibers.executions c = 0 ∧ .dropped c ∈ d.fibers.log) := by
  have hs := orderly_of_run hfront
  obtain ⟨u, hu, hrun⟩ := Option.bind_eq_some_iff.mp hback
  let Inv (u : Impl) : Prop :=
    Orderly u ∧ u.shutdown = true ∧ u.sequence.calling = true ∧
      u.called ++ u.sequence.uncalled = s.shutdownHandlers
  have hbase : Inv u := by
    have hstart := hs.step hu
    have hshutdown := hs.flagged.shutdown.mpr (by simp [hsequence])
    cases (proceed_cases hu).2 with
    | handlers h =>
      refine ⟨hstart, hshutdown, rfl, ?_⟩
      show s.called ++ s.shutdownHandlers = s.shutdownHandlers
      rw [hs.called (by rw [hsequence]; rfl)]
      rfl
    | handler k rest h => simp [hsequence] at h
    | request h => simp [hsequence] at h
    | worker w rest h => simp [hsequence] at h
    | timer h => simp [hsequence] at h
  have hstep {u v : Impl} {a : Action} (hu : Inv u) (h : step u a = some v) : Inv v := by
    obtain ⟨horderly, hshutdown, hcalling, hcalled⟩ := hu
    have hmove := horderly.held.move h
    exact ⟨horderly.step h, hmove.shutdown hshutdown, hmove.calling hshutdown hcalling,
      (hmove.handlers hshutdown hcalling).trans hcalled⟩
  obtain ⟨hd, -, -, hcalled⟩ := run_invariant_of_step hstep hbase hrun
  exact ⟨hcalled, fun h c hmem => hd.held.noted.once (hd.given h c hmem)⟩

/-- In that shutdown the one handler is called, and its closure is executed. -/
theorem handlers_once_whole : ∃ s d, run step (.new 8) (shutdownCalled ++ [.Shutdown]) = some s ∧
    run step s (.proceed :: shutdownWhole.drop 1) = some d ∧
      d.called ++ d.sequence.uncalled = s.shutdownHandlers ∧
      ∀ h c, .handler h c ∈ d.log →
        (d.fibers.executions c = 1 ∧ .dropped c ∉ d.fibers.log) ∨
          (d.fibers.executions c = 0 ∧ .dropped c ∈ d.fibers.log) := by
  obtain ⟨s, d, hfront, hsequence, hback⟩ : ∃ s d,
      run step (.new 8) (shutdownCalled ++ [.Shutdown]) = some s ∧
      s.sequence = .warning ∧ run step s (.proceed :: shutdownWhole.drop 1) = some d :=
    ⟨_, _, rfl, rfl, rfl⟩
  exact ⟨s, d, hfront, hback, handlers_once 8 hfront hsequence hback⟩

/-! ## Workers -/

/-- `ShutdownRequest` has reached a part of the workers that it found. -/
structure Asked (workers : List WorkerId) (d : Impl) : Prop where
  shutdown : d.shutdown = true
  asking : d.sequence.asking = true
  nodup : (d.requested ++ d.sequence.unasked).Nodup
  found : ∀ w ∈ d.requested ++ d.sequence.unasked, w ∈ workers
  reached : ∀ w ∈ d.workers, w ∈ workers → w ∈ d.requested ++ d.sequence.unasked
  leaving : ∀ w ∈ d.workers, w ∈ d.requested → w ∈ d.leaving
  known : ∀ w ∈ workers, w < d.created

/-- Every move keeps the account of the requests: it asks the next of the workers found, or none. -/
theorem Asked.move {workers : List WorkerId} (hd : Asked workers d) (hnodup : d.workers.Nodup)
    (h : Move d t) : Asked workers t := by
  have hshutdown := h.shutdown hd.shutdown
  cases h with
  | Shutdown hnot => exact absurd hd.shutdown (by simp [hnot])
  | proceed h =>
    cases h with
    | handlers hsequence =>
      have hasking := hd.asking
      simp [hsequence, Sequence.asking] at hasking
    | handler k rest hsequence =>
      have hasking := hd.asking
      simp [hsequence, Sequence.asking] at hasking
    | request hsequence =>
      have hasking := hd.asking
      simp [hsequence, Sequence.asking] at hasking
    | worker w rest hsequence =>
      have hrequested : (d.Destroy w).requested ++ rest = d.requested ++ d.sequence.unasked := by
        show (d.note _).requested ++ rest = _
        rw [requested_note, hsequence, List.append_assoc]
        rfl
      refine ⟨hshutdown, rfl, ?_, ?_, ?_, ?_, hd.known⟩
      · exact hrequested ▸ hd.nodup
      · exact hrequested ▸ hd.found
      · exact hrequested ▸ hd.reached
      · intro v hv hmem
        have hmem : v ∈ (d.note (.Destroy w)).requested := hmem
        show v ∈ insert w d.leaving
        rw [requested_note] at hmem
        rcases List.mem_append.mp hmem with hmem | hmem
        · exact Finset.mem_insert_of_mem (hd.leaving v hv hmem)
        · rw [List.mem_singleton.mp hmem]
          exact Finset.mem_insert_self w d.leaving
    | timer hsequence =>
      have hsame : d.sequence.unasked = [] := by rw [hsequence]; rfl
      obtain ⟨-, -, hnodup, hfound, hreached, hleaving, hknown⟩ := hd
      rw [hsame] at hnodup hfound hreached
      exact ⟨hshutdown, rfl, hnodup, hfound, hreached, hleaving, hknown⟩
  | destroyed w =>
    -- A worker that is destroyed is not asked any more.
    have hunasked : (d.sequence.disconnect w).unasked = d.sequence.unasked.erase w := by
      cases d.sequence with
      | notCalled => rfl
      | warning => rfl
      | handlers rest => rfl
      | request rest => rfl
      | returned => rfl
    have hsub : (d.requested ++ d.sequence.unasked.erase w).Sublist
        (d.requested ++ d.sequence.unasked) :=
      (List.Sublist.refl _).append List.erase_sublist
    refine ⟨hshutdown, (asking_disconnect w d.sequence).trans hd.asking, ?_, ?_, ?_, ?_, hd.known⟩
    · show (d.requested ++ (d.sequence.disconnect w).unasked).Nodup
      rw [hunasked]
      exact hd.nodup.sublist hsub
    · show ∀ v ∈ d.requested ++ (d.sequence.disconnect w).unasked, v ∈ workers
      rw [hunasked]
      exact fun v hv => hd.found v (hsub.subset hv)
    · show ∀ v ∈ d.workers.erase w, v ∈ workers →
        v ∈ d.requested ++ (d.sequence.disconnect w).unasked
      rw [hunasked]
      intro v hv hfound
      obtain ⟨hne, hv⟩ := hnodup.mem_erase_iff.mp hv
      rcases List.mem_append.mp (hd.reached v hv hfound) with hmem | hmem
      · exact List.mem_append_left _ hmem
      · exact List.mem_append_right _ ((List.mem_erase_of_ne hne).mpr hmem)
    · intro v hv hmem
      obtain ⟨hne, hv⟩ := hnodup.mem_erase_iff.mp hv
      exact Finset.mem_erase.mpr ⟨hne, hd.leaving v hv hmem⟩
  | created =>
    have hold {w : WorkerId} (hw : w ∈ d.workers ++ [d.created]) (hfound : w ∈ workers) :
        w ∈ d.workers := by
      rcases List.mem_append.mp hw with hw | hw
      · exact hw
      · have hlt := hd.known w hfound
        rw [List.mem_singleton.mp hw] at hlt
        exact absurd hlt (Nat.lt_irrefl _)
    refine ⟨hshutdown, hd.asking, hd.nodup, hd.found, ?_, ?_, ?_⟩
    · exact fun w hw hfound => hd.reached w (hold hw hfound) hfound
    · intro w hw hmem
      exact hd.leaving w (hold hw (hd.found w (List.mem_append_left _ hmem))) hmem
    · exact fun w hw => (hd.known w hw).trans (Nat.lt_succ_self _)
  | aside h =>
    refine ⟨hshutdown, h.sequence ▸ hd.asking, ?_, ?_, ?_, ?_, ?_⟩
    · rw [h.requested, h.sequence]
      exact hd.nodup
    · rw [h.requested, h.sequence]
      exact hd.found
    · rw [h.requested, h.sequence, h.workers]
      exact hd.reached
    · rw [h.requested, h.workers]
      exact fun w hw hmem => h.leaving (hd.leaving w hw hmem)
    · rw [h.created]
      exact hd.known

/-- In every run, `ShutdownRequest` asks workers that are there when it is emitted, each at most
once, and no others. When `Shutdown` returns, those of them that are still there were asked and
their deletion is posted. So if no worker was created since, and nothing is left to do except for
the timer, then all workers are gone and `ShutdownDone` was emitted. -/
theorem requests_once (pooledFibers : ℕ) {front back : List Action}
    (hfront : run step (.new pooledFibers) front = some s) (hsequence : s.sequence = .handlers [])
    (hback : run step s (.proceed :: back) = some d) :
    d.requested.Nodup ∧ (∀ w ∈ d.requested, w ∈ s.workers) ∧
      (d.sequence = .returned → (∀ w ∈ d.workers, w ∈ s.workers → w ∈ d.requested ∧ w ∈ d.leaving) ∧
        (d.workers ⊆ s.workers → d.leaving = ∅ → d.idle = 0 → d.stopping = .no →
          d.workers = [] ∧ .ShutdownDone ∈ d.log)) := by
  have hs := orderly_of_run hfront
  obtain ⟨u, hu, hrun⟩ := Option.bind_eq_some_iff.mp hback
  have hfirst : Asked s.workers u := by
    have hshutdown := hs.flagged.shutdown.mpr (by simp [hsequence])
    have hrequested := hs.requested (by rw [hsequence]; rfl)
    cases (proceed_cases hu).2 with
    | handlers h => simp [hsequence] at h
    | handler k rest h => simp [hsequence] at h
    | request h =>
      refine ⟨hshutdown, rfl, ?_, ?_, ?_, ?_, hs.known⟩
      · show (s.requested ++ s.workers).Nodup
        rw [hrequested]
        exact hs.workers
      · show ∀ w ∈ s.requested ++ s.workers, w ∈ s.workers
        rw [hrequested]
        exact fun w hw => hw
      · exact fun w hw _ => List.mem_append_right _ hw
      · intro w _ hmem
        have hmem : w ∈ s.requested := hmem
        simp [hrequested] at hmem
    | worker w rest h => simp [hsequence] at h
    | timer h => simp [hsequence] at h
  have hstep {u v : Impl} {a : Action} (hu : Orderly u ∧ Asked s.workers u)
      (h : step u a = some v) : Orderly v ∧ Asked s.workers v :=
    ⟨hu.1.step h, hu.2.move hu.1.workers (hu.1.held.move h)⟩
  obtain ⟨hd, hasked⟩ := run_invariant_of_step hstep ⟨hs.step hu, hfirst⟩ hrun
  refine ⟨(List.nodup_append.mp hasked.nodup).1, ?_, fun hreturned => ?_⟩
  · exact fun w hw => hasked.found w (List.mem_append_left _ hw)
  · have hreached {w : WorkerId} (hw : w ∈ d.workers) (hfound : w ∈ s.workers) :
        w ∈ d.requested ∧ w ∈ d.leaving := by
      have hmem := hasked.reached w hw hfound
      have hnone : d.sequence.unasked = [] := by rw [hreturned]; rfl
      rw [hnone, List.append_nil] at hmem
      exact ⟨hmem, hasked.leaving w hw hmem⟩
    refine ⟨fun w hw hfound => hreached hw hfound, fun hsub hleaving hidle hstopping => ?_⟩
    have hempty : d.workers = [] := by
      rw [List.eq_nil_iff_forall_not_mem]
      intro w hw
      have hmem := (hreached hw (hsub hw)).2
      simp [hleaving] at hmem
    have harmed := (hd.flagged.wakes hreturned hempty).resolve_left (by omega)
    have hdone := (hd.flagged.ends harmed).resolve_left (fun hne => hne hstopping)
    refine ⟨hempty, List.count_pos_iff.mp ?_⟩
    rw [hd.flagged.dones, if_pos hdone]
    exact Nat.one_pos

/-- In that shutdown both workers are asked once and are gone at the end. -/
theorem requests_once_whole : ∃ s d,
    run step (.new 8) (shutdownCalled ++ .Shutdown :: shutdownWhole.take 3) = some s ∧
    run step s (.proceed :: shutdownWhole.drop 4) = some d ∧
      d.requested.Nodup ∧ (∀ w ∈ d.requested, w ∈ s.workers) ∧
      (d.sequence = .returned → (∀ w ∈ d.workers, w ∈ s.workers → w ∈ d.requested ∧ w ∈ d.leaving) ∧
        (d.workers ⊆ s.workers → d.leaving = ∅ → d.idle = 0 → d.stopping = .no →
          d.workers = [] ∧ .ShutdownDone ∈ d.log)) := by
  obtain ⟨s, d, hfront, hsequence, hback⟩ : ∃ s d,
      run step (.new 8) (shutdownCalled ++ .Shutdown :: shutdownWhole.take 3) = some s ∧
      s.sequence = .handlers [] ∧ run step s (.proceed :: shutdownWhole.drop 4) = some d :=
    ⟨_, _, rfl, rfl, rfl⟩
  exact ⟨s, d, hfront, hback, requests_once 8 hfront hsequence hback⟩

/-! ## The end -/

/-- Since `emitDoneWhenIdle` was posted, there are only workers that came after `Shutdown`. -/
structure Renewed (before : ℕ) (d : Impl) : Prop where
  shutdown : d.shutdown = true
  created : before ≤ d.created
  workers : 0 < d.idle ∨ d.shutdownIdleArmed = true → ∀ w ∈ d.workers, before ≤ w

/-- A move adds no worker but one that came after `Shutdown`. -/
theorem Renewed.move {before : ℕ} (hd : Renewed before d) (h : Move d t) : Renewed before t := by
  have hshutdown := h.shutdown hd.shutdown
  cases h with
  | Shutdown hnot => exact absurd hd.shutdown (by simp [hnot])
  | proceed h =>
    cases h with
    | handlers hsequence => exact ⟨hshutdown, hd.created, hd.workers⟩
    | handler k rest hsequence => exact ⟨hshutdown, hd.created, hd.workers⟩
    | request hsequence => exact ⟨hshutdown, hd.created, hd.workers⟩
    | worker w rest hsequence => exact ⟨hshutdown, hd.created, hd.workers⟩
    | timer hsequence =>
      refine ⟨hshutdown, hd.created, fun hpos w hw => ?_⟩
      have hw : w ∈ d.workers := hw
      have hne : d.workers ≠ [] := List.ne_nil_of_mem hw
      exact hd.workers (by simpa [hne] using hpos) w hw
  | destroyed w =>
    refine ⟨hshutdown, hd.created, fun hpos v hv => ?_⟩
    have hv : v ∈ d.workers.erase w := hv
    have hne : d.workers.erase w ≠ [] := List.ne_nil_of_mem hv
    exact hd.workers (by simpa [Impl.destroyed, hne] using hpos) v (List.mem_of_mem_erase hv)
  | created =>
    refine ⟨hshutdown, hd.created.trans (Nat.le_succ _), fun hpos w hw => ?_⟩
    rcases List.mem_append.mp hw with hw | hw
    · exact hd.workers hpos w hw
    · rw [List.mem_singleton.mp hw]
      exact hd.created
  | aside h =>
    refine ⟨hshutdown, h.created ▸ hd.created, fun hpos => ?_⟩
    rw [h.workers]
    exact hd.workers (h.idle hpos)

/-- In every run in which no handler is registered while the handlers are called, when
`ShutdownDone` is emitted by `emitDoneWhenIdle` and not by the timer, every handler was called, the
workers that were there at the call of `Shutdown` are gone, and no closure is under way on any
fiber. -/
theorem done_clean (pooledFibers : ℕ) {front back : List Action}
    (hfront : run step (.new pooledFibers) front = some s) (hshutdown : s.shutdown = false)
    (hback : run step s (.Shutdown :: back) = some d) (hstep : step d .done = some t)
    (hnot : d.shutdownDone = false) :
    .ShutdownDone ∈ t.log ∧ t.sequence = .returned ∧ (∀ w ∈ t.workers, w ∉ s.workers) ∧
      ∀ f < t.fibers.created, (t.fibers.fibers f).frames = [] := by
  have hs := orderly_of_run hfront
  have hstart : Orderly s.Shutdown := hs.step (a := .Shutdown) rfl
  have hrun : run step s.Shutdown back = some d := hback
  have hbase : Renewed s.created s.Shutdown := by
    rw [Impl.Shutdown, if_neg (by simp [hshutdown])]
    refine ⟨rfl, Nat.le_refl _, fun hpos => ?_⟩
    rcases hpos with hpos | harmed
    · exact absurd (hs.flagged.idle hpos) (by simp [hshutdown])
    · exact absurd (hs.flagged.armed harmed) (by simp [hshutdown])
  have hkeep {u v : Impl} {a : Action} (hu : Orderly u ∧ Renewed s.created u)
      (h : step u a = some v) : Orderly v ∧ Renewed s.created v :=
    ⟨hu.1.step h, hu.2.move (hu.1.held.move h)⟩
  obtain ⟨hd, hrenewed⟩ := run_invariant_of_step hkeep ⟨hstart, hbase⟩ hrun
  obtain ⟨⟨htearing, hstepping⟩, rfl⟩ := of_guarded hstep
  have hreturned := hd.held.returned hd.flagged htearing hstepping
  have harmed := hd.flagged.stopping (by simp [htearing])
  rw [Impl.emitDone, if_neg (by simp [hnot])]
  refine ⟨?_, hreturned, fun w hw hfound => ?_, fun f hf => ?_⟩
  · simp [Impl.note]
  · have hle := hrenewed.workers (Or.inr harmed) w hw
    exact absurd (hs.known w hfound) (Nat.not_lt.mpr hle)
  · exact hd.held.sound.frames_of_gone (hd.held.gone htearing) hstepping hf

/-- When the shutdown is done, no worker that it found is left and no fiber has a frame. -/
theorem done_clean_whole : ∃ s d t, run step (.new 8) shutdownCalled = some s ∧
    run step s (.Shutdown :: shutdownWhole) = some d ∧ step d .done = some t ∧
      .ShutdownDone ∈ t.log ∧ t.sequence = .returned ∧ (∀ w ∈ t.workers, w ∉ s.workers) ∧
      ∀ f < t.fibers.created, (t.fibers.fibers f).frames = [] := by
  obtain ⟨s, d, t, hfront, hshutdown, hback, hstep, hnot⟩ : ∃ s d t,
      run step (.new 8) shutdownCalled = some s ∧ s.shutdown = false ∧
        run step s (.Shutdown :: shutdownWhole) = some d ∧ step d .done = some t ∧
        d.shutdownDone = false := ⟨_, _, _, rfl, rfl, rfl, rfl, rfl⟩
  exact ⟨s, d, t, hfront, hback, hstep, done_clean 8 hfront hshutdown hback hstep hnot⟩

end Radapter.Instance
