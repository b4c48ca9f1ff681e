import Radapter.Async.Promise
import Mathlib.Data.List.Basic

/-!
# Subscriptions, settlements and calls

The log of a run, read for one promise, and the place of the loop of its `done` among the stacks of
the fibers.
-/

namespace Radapter.Async

variable {α : Type*}

/-! ## What the log says about a promise -/

/-- The event is a call of `subscribe` of the promise. -/
def Event.subscriber? (p : PromiseId) : Event α → Option Callback
  | .subscribed q cb => if q = p then some cb else none
  | _ => none

/-- The event is a call of `done` of the promise. -/
def Event.done? (p : PromiseId) : Event α → Option (Reply α)
  | .done q r => if q = p then some r else none
  | _ => none

/-- The event is a call of a subscriber of the promise. -/
def Event.call? (p : PromiseId) : Event α → Option (Callback × Reply α)
  | .called q cb r => if q = p then some (cb, r) else none
  | _ => none

/-- The subscribers of the promise, as often as they subscribed. -/
def subscribers (log : List (Event α)) (p : PromiseId) : List Callback :=
  log.filterMap (Event.subscriber? p)

/-- What the first `done` of the promise got. -/
def firstDone (log : List (Event α)) (p : PromiseId) : Option (Reply α) :=
  log.findSome? (Event.done? p)

/-- The calls of subscribers of the promise. -/
def calls (log : List (Event α)) (p : PromiseId) : List (Callback × Reply α) :=
  log.filterMap (Event.call? p)

/-! ## Reading the log -/

section Log

variable (s : State α) (e : Event α) (q : PromiseId)

/-- A new event adds its subscriber, if it is a call of `subscribe` of the promise. -/
@[simp] theorem subscribers_note :
    subscribers (s.note e).log q = subscribers s.log q ++ (e.subscriber? q).toList := by
  cases h : e.subscriber? q <;> simp [State.note, subscribers, h]

/-- A new call of `done` counts only if there was none before. -/
@[simp] theorem firstDone_note :
    firstDone (s.note e).log q = (firstDone s.log q).or (e.done? q) := by
  simp [State.note, firstDone, List.findSome?_append]

/-- A new event adds its call, if it calls a subscriber of the promise. -/
@[simp] theorem calls_note : calls (s.note e).log q = calls s.log q ++ (e.call? q).toList := by
  cases h : e.call? q <;> simp [State.note, calls, h]

end Log

/-! ## Where the loop of a promise is -/

/-- The frame is a loop of `done` of the promise, at the position. -/
def Frame.loop? (p : PromiseId) : Frame → Option ℕ
  | .loop q i => if q = p then some i else none
  | _ => none

/-- The loops of the promise in a stack, by their positions. -/
def loops (p : PromiseId) (stack : List Frame) : List ℕ :=
  stack.filterMap (Frame.loop? p)

/-- A loop of `done` on top of the stack is counted for its own promise. -/
@[simp] theorem loops_loop (p q : PromiseId) (i : ℕ) (rest : List Frame) :
    loops p (.loop q i :: rest) = if q = p then i :: loops p rest else loops p rest := by
  by_cases h : q = p <;> simp [loops, Frame.loop?, h]

/-- Script code on top of the stack is no loop. -/
@[simp] theorem loops_script (p : PromiseId) (rest : List Frame) :
    loops p (.script :: rest) = loops p rest := rfl

/-- A `pcall` on top of the stack is no loop. -/
@[simp] theorem loops_pcall (p : PromiseId) (rest : List Frame) :
    loops p (.pcall :: rest) = loops p rest := rfl

/-- An executor on top of the stack is no loop. -/
@[simp] theorem loops_executor (p q : PromiseId) (rest : List Frame) :
    loops p (.executor q :: rest) = loops p rest := rfl

/-- The loops of a stack are found part by part. -/
@[simp] theorem loops_append (p : PromiseId) (front back : List Frame) :
    loops p (front ++ back) = loops p front ++ loops p back := List.filterMap_append

/-- The positions found are those of the frames in the stack. -/
theorem mem_loops {p : PromiseId} {i : ℕ} {stack : List Frame} :
    i ∈ loops p stack ↔ .loop p i ∈ stack := by
  rw [loops, List.mem_filterMap]
  constructor
  · rintro ⟨frame, hmem, hframe⟩
    cases frame with
    | loop q j =>
      obtain ⟨rfl, hj⟩ := Option.ite_none_right_eq_some.mp hframe
      obtain rfl := Option.some.inj hj
      exact hmem
    | script => cases hframe
    | pcall => cases hframe
    | executor => cases hframe
  · intro hmem
    exact ⟨_, hmem, by simp [Frame.loop?]⟩

/-- There is no loop of the promise, or a single one, which is at the position. -/
def LoopAt (fibers : ℕ → List Frame) (p : PromiseId) : Option ℕ → Prop
  | some i => ∃ t, loops p (fibers t) = [i] ∧ ∀ t', t' ≠ t → loops p (fibers t') = []
  | none => ∀ t, loops p (fibers t) = []

section LoopAt

variable {fibers : ℕ → List Frame} {p : PromiseId} {t i : ℕ} {stack : List Frame}

/-- A stack with the same loops takes the place of a stack. -/
theorem LoopAt.update {o : Option ℕ} (h : LoopAt fibers p o)
    (hstack : loops p stack = loops p (fibers t)) :
    LoopAt (Function.update fibers t stack) p o := by
  have hsame : ∀ t', loops p (Function.update fibers t stack t') = loops p (fibers t') := by
    intro t'
    by_cases ht : t' = t
    · subst ht
      simpa using hstack
    · simp [ht]
  cases o with
  | none => exact fun t' => (hsame t').trans (h t')
  | some i =>
    obtain ⟨t₀, hloop, hother⟩ := h
    exact ⟨t₀, (hsame t₀).trans hloop, fun t' ht => (hsame t').trans (hother t' ht)⟩

/-- A loop starts. -/
theorem LoopAt.start (h : LoopAt fibers p none) (hstack : loops p stack = [i]) :
    LoopAt (Function.update fibers t stack) p (some i) := by
  refine ⟨t, by simpa using hstack, fun t' ht => ?_⟩
  simpa [ht] using h t'

/-- The fiber whose stack has a loop has the only one. -/
theorem LoopAt.unique {o : Option ℕ} (h : LoopAt fibers p o) (hmem : i ∈ loops p (fibers t)) :
    o = some i ∧ loops p (fibers t) = [i] ∧ ∀ t', t' ≠ t → loops p (fibers t') = [] := by
  cases o with
  | none =>
    rw [h t] at hmem
    cases hmem
  | some j =>
    obtain ⟨t₀, hloop, hother⟩ := h
    have ht : t = t₀ := by
      by_contra ht
      rw [hother t ht] at hmem
      cases hmem
    subst ht
    obtain rfl : i = j := by simpa [hloop] using hmem
    exact ⟨rfl, hloop, hother⟩

/-- The loop goes on in its fiber. -/
theorem LoopAt.move {o : Option ℕ} {j : ℕ} (h : LoopAt fibers p o)
    (hmem : i ∈ loops p (fibers t)) (hstack : loops p stack = [j]) :
    LoopAt (Function.update fibers t stack) p (some j) := by
  obtain ⟨-, -, hother⟩ := h.unique hmem
  refine ⟨t, by simpa using hstack, fun t' ht => ?_⟩
  simpa [ht] using hother t' ht

/-- The loop ends. -/
theorem LoopAt.stop {o : Option ℕ} (h : LoopAt fibers p o) (hmem : i ∈ loops p (fibers t))
    (hstack : loops p stack = []) : LoopAt (Function.update fibers t stack) p none := by
  obtain ⟨-, -, hother⟩ := h.unique hmem
  intro t'
  by_cases ht : t' = t
  · subst ht
    simpa using hstack
  · simpa [ht] using hother t' ht

end LoopAt

end Radapter.Async
