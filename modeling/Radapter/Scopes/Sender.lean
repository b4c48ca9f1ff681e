import Radapter.Library.Scoped

/-!
# The sender of a message

`worker_call` keeps the sender of a message in a field of the worker while `OnMsg` handles it, and
puts the field back when `OnMsg` has returned or thrown. `OnMsg` may suspend the fiber that it runs
on (a Modbus master awaits its validators there), and then other fibers call the same worker. The
field is saved and put back as on a stack, but the calls need not end in that order.
-/

namespace Radapter.Scopes

open Library

variable {V : Type*}

/-- The field `currentSender` of a worker that is alive, and the calls of it on each fiber. What a
call has saved is its variable `was`, what it has set is the sender it was given. -/
abbrev Calls (V : Type*) := Scoped.State ℕ V

/-- `Worker::CurrentSender`. -/
def CurrentSender (s : Calls V) : V := s.current

/-- What happens to the worker. -/
inductive Action (V : Type*) where
  /-- The fiber that runs calls the worker: `worker_call` up to `OnMsg`. -/
  | worker_call (sender : V)
  /-- `OnMsg` has returned or thrown, on the fiber that runs: the destructor of `revert`. -/
  | revert
  /-- The fiber that runs is suspended or done, and another one goes on. -/
  | resume (fiber : ℕ)
  deriving DecidableEq

/-- What a step does to the field. -/
def effect : Action V → Scoped.Op ℕ V
  | .worker_call sender => .enter sender
  | .revert => .leave
  | .resume fiber => .switch fiber

/-- One step. -/
def step (s : Calls V) (a : Action V) : Option (Calls V) := Scoped.apply s (effect a)

/-- The senders that the calls are given. -/
def senders : List (Action V) → List V
  | [] => []
  | .worker_call sender :: rest => sender :: senders rest
  | .revert :: rest => senders rest
  | .resume _ :: rest => senders rest

/-- Inside `OnMsg` the current sender is the one passed to that very call, and when all calls have
ended it is what it was before the first. -/
structure OwnSender (before : V) (s : Calls V) : Prop where
  inside : ∀ call outer, s.frames s.running = call :: outer → CurrentSender s = call.own
  after : (∀ fiber, s.frames fiber = []) → CurrentSender s = before

/-- A fiber goes on inside a call only if it is the newest of the calls that have not ended. -/
def NewestCall (s : Calls V) : Action V → Prop
  | .resume fiber => s.frames fiber = [] ∨ s.order.head? = some fiber
  | _ => True

instance [DecidableEq V] (s : Calls V) : (a : Action V) → Decidable (NewestCall s a)
  | .resume fiber => inferInstanceAs (Decidable (s.frames fiber = [] ∨ s.order.head? = some fiber))
  | .worker_call _ => isTrue trivial
  | .revert => isTrue trivial

/-- A step of the newest call is an orderly one of the scopes. -/
theorem newestCall_iff (s : Calls V) (a : Action V) :
    NewestCall s a ↔ Scoped.Orderly s (effect a) := by
  cases a <;> exact Iff.rfl

/-- A run that succeeds begins a call for every sender. -/
theorem entered_eq {s t : Calls V} {actions : List (Action V)}
    (hrun : run step s actions = some t) :
    Scoped.entered step (fun _ a => effect a) s actions = senders actions := by
  induction actions generalizing s with
  | nil => rfl
  | cons a rest ih =>
    obtain ⟨next, hnext, hrest⟩ := Option.bind_eq_some_iff.mp hrun
    rw [Scoped.entered, hnext]
    cases a with
    | worker_call sender => exact congrArg (sender :: ·) (ih hrest)
    | revert => exact ih hrest
    | resume fiber => exact ih hrest

/-- In a run whose fibers go on only inside the newest call, every call finds its own sender, and
the field is restored. When the senders differ this holds in no other run. -/
theorem ownSender_iff_newestCall {before : V} {fiber : ℕ} {actions : List (Action V)} {t : Calls V}
    (hrun : run step (Scoped.start before fiber) actions = some t) :
    (Along step NewestCall (Scoped.start before fiber) actions →
      ∀ done u, done <+: actions → run step (Scoped.start before fiber) done = some u →
        OwnSender before u) ∧
    ((senders actions).Nodup →
      (∀ done u, done <+: actions → run step (Scoped.start before fiber) done = some u →
        OwnSender before u) →
      Along step NewestCall (Scoped.start before fiber) actions) := by
  have hnested : Scoped.Nested before (Scoped.start before fiber) :=
    Scoped.nested_start before fiber
  have halong : ∀ s : Calls V, Along step NewestCall s actions ↔
      Along step (fun s a => Scoped.Orderly s (effect a)) s actions := by
    intro s
    have hsame : NewestCall = fun (s : Calls V) a => Scoped.Orderly s (effect a) := by
      funext s a
      exact propext (newestCall_iff s a)
    rw [hsame]
  have hstep : ∀ {s : Calls V} {a : Action V} {t : Calls V}, step s a = some t →
      Scoped.apply (id s) (effect a) = some (id t) := fun h => h
  constructor
  · intro hgood done u hdone hu
    obtain ⟨hown, hrestored⟩ := Scoped.own_of_along id (fun _ a => effect a) hstep hnested
      ((halong _).mp hgood) hdone hu
    exact ⟨hown, hrestored⟩
  · intro hdistinct hown
    have hall : (Scoped.entered step (fun _ a => effect a) (Scoped.start before fiber)
        actions).Nodup := by
      rw [entered_eq hrun]
      exact hdistinct
    exact (halong _).mpr (Scoped.along_of_own id (fun _ a => effect a) hstep hnested hall hrun
      fun done u hdone hu => (hown done u hdone hu).inside)

/-- The second call is made inside the first, and on another fiber, and ends before the first goes
on. -/
def nestedCalls : List (Action ℕ) :=
  [.worker_call 1, .resume 8, .worker_call 2, .revert, .resume 7, .revert]

/-- A call inside a call, ended on another fiber: each finds its own sender. -/
theorem ownSender_of_nestedCalls : (∃ t, run step (Scoped.start 0 7) nestedCalls = some t) ∧
    ∀ done u, done <+: nestedCalls →
      run step (Scoped.start 0 7) done = some u → OwnSender 0 u := by
  obtain ⟨t, hrun⟩ : ∃ t, run step (Scoped.start 0 7) nestedCalls = some t := ⟨_, rfl⟩
  have hgood : Along step NewestCall (Scoped.start 0 7) nestedCalls := by decide
  exact ⟨⟨t, hrun⟩, (ownSender_iff_newestCall hrun).1 hgood⟩

/-- The first call goes on while the second is suspended, and finds the sender of the second. -/
theorem not_ownSender_of_resumed : ¬ ∀ done u,
    done <+: [.worker_call 1, .resume 8, .worker_call 2, .resume 7] →
    run step (Scoped.start 0 7) done = some u → OwnSender 0 u := by
  intro hown
  have hinside := (hown _ _ (List.prefix_refl _) rfl).inside ⟨0, 1⟩ [] rfl
  cases hinside

end Radapter.Scopes
