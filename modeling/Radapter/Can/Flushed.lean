import Radapter.Library.Runs
import Mathlib.Data.Nat.Basic

/-!
# The flushed event

The CAN worker counts the frames that the device took and tells its listeners once the device has
none left to write. The device may acknowledge a frame inside `writeFrame`, before it is counted,
and every event may lead back into the worker. So the counter is related here to the queue of the
device over all interleavings of the handlers: a counted frame that the device has no more is
reported by a handler that is still under way.

A write that fails is not followed by a check of the queue. The last frames that the device
drops inside such a write, without a signal, stay counted.
-/

namespace Radapter.Can

open Library

/-- `QCanBusDevice::CanBusDeviceState`. -/
inductive CanBusDeviceState where
  | UnconnectedState
  | ConnectingState
  | ConnectedState
  | ClosingState
  deriving DecidableEq, Repr

/-- The signals of the device that the worker handles with an event of its own. -/
inductive Signal where
  | framesWritten (framesCount : ℕ)
  | errorOccurred
  | stateChanged (state : CanBusDeviceState)
  deriving DecidableEq, Repr

/-- A signal that frames may leave the queue of the device with. -/
def Signal.Drains : Signal → Prop
  | .framesWritten _ => True
  | .errorOccurred => True
  | .stateChanged state => state = .UnconnectedState

instance : DecidablePred Signal.Drains
  | .framesWritten _ => isTrue trivial
  | .errorOccurred => isTrue trivial
  | .stateChanged state => inferInstanceAs (Decidable (state = .UnconnectedState))

/-- Where a handler of the worker stands. -/
inductive Call where
  /-- `OnMsg` is in `writeFrame`; `shrunk` says whether frames left the queue inside it. -/
  | writing (shrunk : Bool)
  /-- The handler of a signal gives its own event. -/
  | event (signal : Signal)
  /-- A handler gives the flushed event, its last statement. -/
  | flushed
  deriving DecidableEq, Repr

/-- What was seen of the worker. -/
inductive Entry where
  /-- `writeFrame` took a frame. -/
  | wrote
  | signal (signal : Signal)
  /-- The flushed event, with the signal it was given for, if any, and the frames that the device
  had left. -/
  | flushed (cause : Option Signal) (framesToWrite : ℕ)
  deriving DecidableEq, Repr

/-- A CAN worker with the length of its device's queue. -/
structure CanWorker where
  framesToWrite : ℕ
  pendingSinceFlush : ℕ
  calls : List Call
  log : List Entry
  deriving DecidableEq, Repr

/-- Before the first frame is written. -/
def CanWorker.init : CanWorker := ⟨0, 0, [], []⟩

/-- `emitFlushedIfDrained`. -/
def CanWorker.emitFlushedIfDrained (s : CanWorker) (cause : Option Signal) (force : Bool) :
    CanWorker :=
  if s.pendingSinceFlush = 0 ∨ force = false ∧ s.framesToWrite ≠ 0 then s
  else
    { s with
      pendingSinceFlush := 0
      calls := s.calls ++ [.flushed]
      log := s.log ++ [.flushed cause s.framesToWrite] }

/-- What follows the event that a handler gives for its signal. -/
def CanWorker.afterEvent (s : CanWorker) : Signal → CanWorker
  | .framesWritten framesCount => s.emitFlushedIfDrained (some (.framesWritten framesCount)) false
  | .errorOccurred => s.emitFlushedIfDrained (some .errorOccurred) false
  | .stateChanged state =>
      if state = .UnconnectedState then s.emitFlushedIfDrained (some (.stateChanged state)) true
      else s

/-- A handler is not under way any more. -/
def CanWorker.return (s : CanWorker) (k : ℕ) : CanWorker :=
  { s with calls := s.calls.eraseIdx k }

/-- `OnMsg` counts the frame that the device took. -/
def CanWorker.wrote (s : CanWorker) : CanWorker :=
  { s with pendingSinceFlush := s.pendingSinceFlush + 1, log := s.log ++ [.wrote] }

/-- What happens to a worker and its device. -/
inductive Action where
  /-- `OnMsg` calls `writeFrame`. -/
  | onMsg
  /-- The device queues frames. -/
  | queued (frames : ℕ)
  /-- The device gives a signal, with the frames it has left. -/
  | signal (signal : Signal) (left : ℕ)
  /-- Frames leave the queue inside a `writeFrame`. -/
  | shrunk (k left : ℕ)
  /-- `writeFrame` returns. -/
  | returned (k : ℕ) (ok : Bool)
  /-- The listeners of the event for a signal are through. -/
  | handled (k : ℕ)
  /-- The listeners of the flushed event are through. -/
  | flushed (k : ℕ)
  deriving DecidableEq, Repr

/-- A step of the worker or of its device. -/
def CanWorker.step (s : CanWorker) : Action → Option CanWorker
  | .onMsg => some { s with calls := s.calls ++ [.writing false] }
  | .queued frames => some { s with framesToWrite := s.framesToWrite + frames }
  | .signal signal left =>
      if signal.Drains ∨ s.framesToWrite ≤ left then
        some { s with
          framesToWrite := left
          calls := s.calls ++ [.event signal]
          log := s.log ++ [.signal signal] }
      else none
  | .shrunk k left =>
      match s.calls[k]? with
      | some (.writing _) =>
          if left < s.framesToWrite then
            some { s with framesToWrite := left, calls := s.calls.set k (.writing true) }
          else none
      | _ => none
  | .returned k ok =>
      match s.calls[k]? with
      | some (.writing _) =>
          if ok then some ((s.return k).wrote.emitFlushedIfDrained none false)
          -- the error that `OnMsg` raises passes the check by
          else some (s.return k)
      | _ => none
  | .handled k =>
      match s.calls[k]? with
      | some (.event signal) => some ((s.return k).afterEvent signal)
      | _ => none
  | .flushed k => if s.calls[k]? = some .flushed then some (s.return k) else none

/-- No `writeFrame` fails that frames left the queue inside of. -/
def KeepsOnFailure (s : CanWorker) : Action → Prop
  | .returned k false => s.calls[k]? ≠ some (.writing true)
  | _ => True

instance (s : CanWorker) : DecidablePred (KeepsOnFailure s)
  | .returned _ false => inferInstanceAs (Decidable (_ ≠ _))
  | .returned _ true => isTrue trivial
  | .onMsg => isTrue trivial
  | .queued _ => isTrue trivial
  | .signal _ _ => isTrue trivial
  | .shrunk _ _ => isTrue trivial
  | .handled _ => isTrue trivial
  | .flushed _ => isTrue trivial

/-! ## The counter -/

/-- The frames written since the last flushed event. -/
def writtenSince (log : List Entry) : ℕ :=
  log.foldl (fun written entry =>
    match entry with
    | .wrote => written + 1
    | .signal _ => written
    | .flushed _ _ => 0) 0

/-- A frame that is written is one more since the last flushed event. -/
@[simp] theorem writtenSince_wrote (log : List Entry) :
    writtenSince (log ++ [.wrote]) = writtenSince log + 1 := by
  simp [writtenSince]

/-- A signal writes nothing. -/
@[simp] theorem writtenSince_signal (log : List Entry) (signal : Signal) :
    writtenSince (log ++ [.signal signal]) = writtenSince log := by
  simp [writtenSince]

/-- With a flushed event the count begins again. -/
@[simp] theorem writtenSince_flushed (log : List Entry) (cause : Option Signal) (left : ℕ) :
    writtenSince (log ++ [.flushed cause left]) = 0 := by
  simp [writtenSince]

/-- A flushed event is given for frames written since the previous one, when the device has
none left or for the signal that it has disconnected. -/
def FlushedRight (log : List Entry) : Prop :=
  ∀ before cause left after, log = before ++ .flushed cause left :: after →
    0 < writtenSince before ∧
      (left = 0 ∨ cause = some (.stateChanged .UnconnectedState)) ∧
      ∀ signal, cause = some signal → .signal signal ∈ before

/-- An entry that is no flushed event asks for nothing. -/
theorem FlushedRight.concat {log : List Entry} (h : FlushedRight log) (entry : Entry)
    (hentry : ∀ cause left, entry = .flushed cause left →
      0 < writtenSince log ∧
        (left = 0 ∨ cause = some (.stateChanged .UnconnectedState)) ∧
        ∀ signal, cause = some signal → .signal signal ∈ log) :
    FlushedRight (log ++ [entry]) := by
  intro before cause left after hlog
  rcases List.eq_nil_or_concat after with rfl | ⟨more, last, rfl⟩
  · obtain ⟨rfl, hlast⟩ := List.append_inj' hlog rfl
    exact hentry cause left (List.singleton_inj.mp hlast)
  · have hinit : log = before ++ .flushed cause left :: more := by
      rw [List.concat_eq_append, ← List.cons_append, ← List.append_assoc] at hlog
      exact (List.append_inj' hlog rfl).1
    exact h before cause left more hinit

/-- The counter has the frames written since the last flushed event, and every flushed event
was right. -/
structure Counted (s : CanWorker) : Prop where
  counted : s.pendingSinceFlush = writtenSince s.log
  right : FlushedRight s.log
  signalled : ∀ signal, .event signal ∈ s.calls → .signal signal ∈ s.log

/-- Before the first frame the counter is zero. -/
theorem counted_init : Counted CanWorker.init where
  counted := rfl
  right before cause left after h := by
    have hlength := congrArg List.length h
    simp [CanWorker.init] at hlength
  signalled signal h := absurd h List.not_mem_nil

/-- A handler that is not for a signal begins. -/
theorem Counted.call {s : CanWorker} (h : Counted s) {c : Call} (hc : ∀ signal, c ≠ .event signal)
    {signal : Signal} (hmem : .event signal ∈ s.calls ++ [c]) : .signal signal ∈ s.log := by
  rcases List.mem_append.mp hmem with hold | hnew
  · exact h.signalled signal hold
  · exact absurd (List.mem_singleton.mp hnew).symm (hc signal)

/-- The flushed event is right if it is forced by the signal of a disconnect only. -/
theorem Counted.emitFlushedIfDrained {s : CanWorker} (h : Counted s) (cause : Option Signal)
    (force : Bool) (hforce : force = true → cause = some (.stateChanged .UnconnectedState))
    (hcause : ∀ signal, cause = some signal → .signal signal ∈ s.log) :
    Counted (s.emitFlushedIfDrained cause force) := by
  rw [CanWorker.emitFlushedIfDrained]
  split
  · exact h
  · rename_i hdrained
    obtain ⟨hpending, hleft⟩ := not_or.mp hdrained
    refine ⟨?_, ?_, ?_⟩
    · rw [writtenSince_flushed]
    · refine h.right.concat _ ?_
      rintro _ _ ⟨⟩
      refine ⟨?_, ?_, hcause⟩
      · rw [← h.counted]
        exact Nat.pos_of_ne_zero hpending
      · cases force with
        | false =>
          left
          by_contra hne
          exact hleft ⟨rfl, hne⟩
        | true => exact .inr (hforce rfl)
    · intro signal hmem
      exact List.mem_append_left _ (h.call (fun _ heq => by cases heq) hmem)

/-- A handler whose signal was seen keeps the count right. -/
theorem Counted.afterEvent {s : CanWorker} (h : Counted s) {signal : Signal}
    (hsignal : .signal signal ∈ s.log) : Counted (s.afterEvent signal) := by
  have hcause : ∀ other, some signal = some other → Entry.signal other ∈ s.log := by
    rintro _ ⟨⟩
    exact hsignal
  cases signal with
  | framesWritten framesCount => exact h.emitFlushedIfDrained _ false (fun hf => by cases hf) hcause
  | errorOccurred => exact h.emitFlushedIfDrained _ false (fun hf => by cases hf) hcause
  | stateChanged state =>
    rw [CanWorker.afterEvent]
    split
    · rename_i hstate
      exact h.emitFlushedIfDrained _ true (fun _ => by rw [hstate]) hcause
    · exact h

/-- So does a handler that ends. -/
theorem Counted.return {s : CanWorker} (h : Counted s) (k : ℕ) : Counted (s.return k) where
  counted := h.counted
  right := h.right
  signalled signal hmem := h.signalled signal (List.mem_of_mem_eraseIdx hmem)

/-- A frame that the device took is counted. -/
theorem Counted.wrote {s : CanWorker} (h : Counted s) : Counted s.wrote where
  counted := by rw [CanWorker.wrote, writtenSince_wrote, h.counted]
  right := h.right.concat _ (fun _ _ heq => by cases heq)
  signalled signal hmem := List.mem_append_left _ (h.signalled signal hmem)

/-- A step of the worker or its device, as far as the counter goes. -/
theorem Counted.step {s t : CanWorker} (h : Counted s) {action : Action}
    (hstep : s.step action = some t) : Counted t := by
  cases action with
  | onMsg =>
    cases hstep
    exact ⟨h.counted, h.right, fun _ hmem => h.call (fun _ heq => by cases heq) hmem⟩
  | queued frames =>
    cases hstep
    exact ⟨h.counted, h.right, h.signalled⟩
  | signal signal left =>
    obtain ⟨-, rfl⟩ := of_guarded hstep
    refine ⟨?_, h.right.concat _ (fun _ _ heq => by cases heq), fun other hmem => ?_⟩
    · rw [writtenSince_signal, h.counted]
    · rcases List.mem_append.mp hmem with hold | hnew
      · exact List.mem_append_left _ (h.signalled other hold)
      · obtain ⟨rfl⟩ := List.mem_singleton.mp hnew
        exact List.mem_append_right _ (List.mem_singleton_self _)
  | shrunk k left =>
    simp only [CanWorker.step] at hstep
    split at hstep
    · obtain ⟨-, rfl⟩ := of_guarded hstep
      refine ⟨h.counted, h.right, fun signal hmem => ?_⟩
      rcases List.mem_or_eq_of_mem_set hmem with hold | hnew
      · exact h.signalled signal hold
      · cases hnew
    · cases hstep
  | returned k ok =>
    simp only [CanWorker.step] at hstep
    split at hstep
    · split at hstep
      · cases hstep
        refine (h.return k).wrote.emitFlushedIfDrained none false ?_ ?_
        · rintro ⟨⟩
        · rintro _ ⟨⟩
      · cases hstep
        exact h.return k
    · cases hstep
  | handled k =>
    simp only [CanWorker.step] at hstep
    split at hstep
    · rename_i signal hk
      cases hstep
      exact (h.return k).afterEvent (h.signalled signal (List.mem_of_getElem? hk))
    · cases hstep
  | flushed k =>
    obtain ⟨-, rfl⟩ := of_guarded hstep
    exact h.return k

/-! ## The queue -/

/-- A handler that checks the queue once its event is through, or once `writeFrame` took the
frame. -/
def Call.Checks : Call → Prop
  | .writing shrunk => shrunk = true
  | .event signal => signal.Drains
  | .flushed => False

/-- Where the device has no frame left that is counted, a handler under way is going to see it. -/
def Owed (s : CanWorker) : Prop :=
  0 < s.pendingSinceFlush → s.framesToWrite = 0 → ∃ c ∈ s.calls, c.Checks

/-- No frame is counted at first. -/
theorem owed_init : Owed CanWorker.init := fun h => absurd h (lt_irrefl 0)

/-- After a check, nothing is counted that the device has no more. -/
theorem owed_emitFlushedIfDrained (s : CanWorker) (cause : Option Signal) (force : Bool) :
    Owed (s.emitFlushedIfDrained cause force) := by
  rw [CanWorker.emitFlushedIfDrained]
  split
  · rename_i hnot
    intro hpending hempty
    rcases hnot with hnone | ⟨-, hleft⟩
    · exact absurd hnone (Nat.ne_of_gt hpending)
    · exact absurd hempty hleft
  · exact fun hnone => absurd hnone (lt_irrefl 0)

/-- The handler of a signal that frames leave the queue with checks the queue. -/
theorem owed_afterEvent (s : CanWorker) {signal : Signal} (hdrains : signal.Drains) :
    Owed (s.afterEvent signal) := by
  cases signal with
  | framesWritten framesCount => exact owed_emitFlushedIfDrained s _ false
  | errorOccurred => exact owed_emitFlushedIfDrained s _ false
  | stateChanged state =>
    obtain rfl : state = .UnconnectedState := hdrains
    exact owed_emitFlushedIfDrained s _ true

/-- Another handler begins. -/
theorem Owed.call {s : CanWorker} (h : Owed s) (hpending : 0 < s.pendingSinceFlush)
    (hempty : s.framesToWrite = 0) (c : Call) : ∃ other ∈ s.calls ++ [c], other.Checks := by
  obtain ⟨other, hother, hchecks⟩ := h hpending hempty
  exact ⟨other, List.mem_append_left _ hother, hchecks⟩

/-- A handler ends that does not check the queue. -/
theorem Owed.return {s : CanWorker} (h : Owed s) {k : ℕ} {c : Call} (hk : s.calls[k]? = some c)
    (hc : ¬ c.Checks) : Owed (s.return k) := by
  intro hpending hempty
  obtain ⟨other, hother, hchecks⟩ := h hpending hempty
  obtain ⟨n, hn⟩ := List.mem_iff_getElem?.mp hother
  refine ⟨other, List.mem_eraseIdx_iff_getElem?.mpr ⟨n, ?_, hn⟩, hchecks⟩
  rintro rfl
  obtain rfl := Option.some.inj (hn.symm.trans hk)
  exact hc hchecks

/-- A step of the worker or its device, as far as the queue goes. -/
theorem Owed.step {s t : CanWorker} (h : Owed s) {action : Action}
    (hgood : KeepsOnFailure s action) (hstep : s.step action = some t) : Owed t := by
  cases action with
  | onMsg =>
    cases hstep
    exact fun hpending hempty => h.call hpending hempty _
  | queued frames =>
    cases hstep
    exact fun hpending hempty => h hpending (Nat.eq_zero_of_add_eq_zero_right hempty)
  | signal signal left =>
    obtain ⟨hleft, rfl⟩ := of_guarded hstep
    intro hpending hempty
    rcases hleft with hdrains | hle
    · exact ⟨.event signal, List.mem_append_right _ (List.mem_singleton_self _), hdrains⟩
    · exact h.call hpending (Nat.le_zero.mp (hempty ▸ hle)) _
  | shrunk k left =>
    simp only [CanWorker.step] at hstep
    split at hstep
    · rename_i hk
      obtain ⟨-, rfl⟩ := of_guarded hstep
      exact fun _ _ => ⟨.writing true, List.mem_set (List.getElem?_eq_some_iff.mp hk).1 _, rfl⟩
    · cases hstep
  | returned k ok =>
    simp only [CanWorker.step] at hstep
    split at hstep
    · rename_i shrunk hk
      cases ok with
      | false =>
        cases hstep
        refine h.return hk ?_
        rintro (rfl : shrunk = true)
        exact hgood hk
      | true =>
        cases hstep
        exact owed_emitFlushedIfDrained _ none false
    · cases hstep
  | handled k =>
    simp only [CanWorker.step] at hstep
    split at hstep
    · rename_i signal hk
      cases hstep
      by_cases hdrains : signal.Drains
      · exact owed_afterEvent _ hdrains
      · -- only a change to another state is handled without a check
        cases signal with
        | framesWritten framesCount => exact absurd trivial hdrains
        | errorOccurred => exact absurd trivial hdrains
        | stateChanged state =>
          have hstate : state ≠ .UnconnectedState := hdrains
          rw [CanWorker.afterEvent, if_neg hstate]
          exact h.return hk hdrains
    · cases hstep
  | flushed k =>
    obtain ⟨hk, rfl⟩ := of_guarded hstep
    exact h.return hk id

/-! ## Runs -/

/-- However the handlers of a run are nested, every flushed event is given for frames written
since the previous one, and with the queue empty or the device disconnected. Once no handler
is under way, counted frames are still in the queue, if no failing write took frames from it. -/
theorem flushed_exact (actions : List Action) (t : CanWorker)
    (hrun : run CanWorker.step CanWorker.init actions = some t) :
    FlushedRight t.log ∧
    (Along CanWorker.step KeepsOnFailure CanWorker.init actions → t.calls = [] →
      0 < t.pendingSinceFlush → 0 < t.framesToWrite) := by
  have hcounted : Counted t :=
    run_invariant_of_step (fun h hstep => h.step hstep) counted_init hrun
  refine ⟨hcounted.right, fun hgood hcalls hpending => ?_⟩
  have howed : Owed t :=
    run_invariant (fun h hgood hstep => h.step hgood hstep) owed_init hgood
      (List.prefix_refl actions) hrun
  by_contra hnone
  obtain ⟨c, hc, -⟩ := howed hpending (Nat.eq_zero_of_not_pos hnone)
  rw [hcalls] at hc
  exact List.not_mem_nil hc

/-- A frame is acknowledged inside `writeFrame`, and a listener of that event writes another one,
which stays in the queue. -/
def acknowledgedInside : List Action :=
  [.onMsg, .queued 1, .returned 0 true, .onMsg, .queued 1, .signal (.framesWritten 2) 0, .onMsg,
    .queued 1, .returned 2 true, .handled 1, .returned 0 true]

/-- A listener writes another frame from inside the event of the first: three are counted and one is
left to go. -/
theorem flushed_exact_acknowledged :
    ∃ t, run CanWorker.step CanWorker.init acknowledgedInside = some t ∧ t.calls = [] ∧
      t.pendingSinceFlush = 3 ∧ 0 < t.framesToWrite :=
  ⟨_, rfl, rfl, rfl, (flushed_exact acknowledgedInside _ rfl).2 (by decide) rfl (by decide)⟩

/-- The queue runs empty inside a write that fails, and the frame before it stays counted. -/
theorem failed_write_unflushed :
    ∃ t, run CanWorker.step CanWorker.init
        [.onMsg, .queued 1, .returned 0 true, .onMsg, .shrunk 0 0, .returned 0 false] = some t ∧
      t.calls = [] ∧ 0 < t.pendingSinceFlush ∧ t.framesToWrite = 0 :=
  ⟨_, rfl, by decide⟩

end Radapter.Can
