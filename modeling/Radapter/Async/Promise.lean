import Radapter.Library.Runs
import Mathlib.Logic.Function.Basic

/-!
# Promises

`promise()` wraps an executor; `done` settles the promise and calls its subscribers one after the
other, `subscribe` on a settled promise calls the subscriber at once. `gather` is one more promise,
whose executor subscribes to a list of promises. Every Lua entry point runs on a fiber, and a fiber
can be suspended in any call of script code, so the model keeps a control stack for each fiber and
lets any of them take the next step.

A promise of native code hands its settlement to each subscriber in a protected call of its own. No
script code runs inside `gather`: the promise it makes has no subscribers before it returns.
-/

namespace Radapter.Async

/-! ## Data -/

/-- Promises are numbered as they are made. -/
abbrev PromiseId := ℕ

/-- A value that a promise is settled with: one of the script's, or the table in which the `gather`
of the promise collects results. -/
inductive Value (α : Type*) where
  | data (a : α)
  | results (g : PromiseId)
deriving DecidableEq, Repr

/-- `(res, err)`, with `none` for nil. -/
structure Reply (α : Type*) where
  res : Option (Value α)
  err : Option (Value α)
deriving DecidableEq, Repr

/-- A subscriber: a function of the script, or the one that `gather` passes to the promise at
place `i` of its list. -/
inductive Callback where
  | script (f : ℕ)
  | gather (g : PromiseId) (i : ℕ)
deriving DecidableEq, Repr

/-- The locals of a call of `gather`. -/
structure Gather (α : Type*) where
  promises : List PromiseId
  results : List (Option (Value α))
  left : ℕ
deriving DecidableEq, Repr

/-- The locals of `make_state`; `settled` holds `res` and `err` too. The field `returned` says that
`promise` has returned, so that the script has the promise. For a native promise `subs` are the
subscribers that have not been called yet. -/
structure Promise (α : Type*) where
  native : Bool := false
  subs : List Callback := []
  had_sub : Bool := false
  settled : Option (Reply α) := none
  returned : Bool := false
  gathers : Option (Gather α) := none
deriving DecidableEq, Repr

/-- What a fiber is in the middle of. -/
inductive Frame where
  /-- Code of the script. -/
  | script
  /-- A `pcall` of the script, or the protected call of a native promise. -/
  | pcall
  /-- `xpcall(executor, ..)` in `promise`. -/
  | executor (p : PromiseId)
  /-- The loop of `done`, about to call `subs[i]`. -/
  | loop (p : PromiseId) (i : ℕ)
deriving DecidableEq, Repr

/-- The frames at which an error stops. -/
def Frame.catches : Frame → Bool
  | .pcall => true
  | .executor _ => true
  | _ => false

/-- What happens to promises. -/
inductive Event (α : Type*) where
  | subscribed (p : PromiseId) (cb : Callback)
  | done (p : PromiseId) (r : Reply α)
  | called (p : PromiseId) (cb : Callback) (r : Reply α)
  | raised (text : String) (e : Value α)
deriving DecidableEq, Repr

/-- The promises, the control stack of each fiber (the top first), the timers that `done` started,
and the events so far. -/
structure State (α : Type*) where
  promises : PromiseId → Promise α
  made : ℕ
  fibers : ℕ → List Frame
  timers : List (PromiseId × Value α)
  log : List (Event α)

variable {α : Type*}

/-- Before any script runs. -/
def init : State α where
  promises := fun _ => {}
  made := 0
  fibers := fun _ => []
  timers := []
  log := []

/-! ## Parts of a step -/

def State.setPromise (s : State α) (p : PromiseId) (P : Promise α) : State α :=
  { s with promises := Function.update s.promises p P }

def State.setFiber (s : State α) (t : ℕ) (stack : List Frame) : State α :=
  { s with fibers := Function.update s.fibers t stack }

def State.push (s : State α) (t : ℕ) (frame : Frame) : State α :=
  s.setFiber t (frame :: s.fibers t)

def State.note (s : State α) (e : Event α) : State α :=
  { s with log := s.log ++ [e] }

section Parts

variable (s : State α) (p q : PromiseId) (P : Promise α) (t : ℕ) (stack : List Frame) (e : Event α)

/-- The promise that is set has its new state. -/
@[simp] theorem setPromise_self : (s.setPromise p P).promises p = P := by simp [State.setPromise]

/-- To set a promise changes no stack. -/
@[simp] theorem setPromise_fibers : (s.setPromise p P).fibers = s.fibers := rfl

/-- To set a promise is no event. -/
@[simp] theorem setPromise_log : (s.setPromise p P).log = s.log := rfl

/-- To set a promise makes none. -/
@[simp] theorem setPromise_made : (s.setPromise p P).made = s.made := rfl

/-- A stack is set without touching the promises. -/
@[simp] theorem setFiber_promises : (s.setFiber t stack).promises = s.promises := rfl

/-- The fiber that is set has its new stack. -/
@[simp] theorem setFiber_self : (s.setFiber t stack).fibers t = stack := by simp [State.setFiber]

/-- To set a stack is no event. -/
@[simp] theorem setFiber_log : (s.setFiber t stack).log = s.log := rfl

/-- To set a stack makes no promise. -/
@[simp] theorem setFiber_made : (s.setFiber t stack).made = s.made := rfl

/-- An event alone changes no promise. -/
@[simp] theorem note_promises : (s.note e).promises = s.promises := rfl

/-- Other promises keep their state. -/
theorem setPromise_ne {q : PromiseId} (h : q ≠ p) :
    (s.setPromise p P).promises q = s.promises q := by
  simp [State.setPromise, h]

/-- Other fibers keep their stacks. -/
theorem setFiber_ne {t' : ℕ} (h : t' ≠ t) : (s.setFiber t stack).fibers t' = s.fibers t' := by
  simp [State.setFiber, h]

end Parts

/-- The branches of `done` once the promise is settled: `#subs` is read when the loop starts. -/
def State.notify (s : State α) (t : ℕ) (p : PromiseId) (r : Reply α) : State α :=
  if 0 < (s.promises p).subs.length then
    s.push t (.loop p 0)
  else
    match r.err with
    | some e => { s with timers := s.timers ++ [(p, e)] }
    | none => s

/-- `done(r, e)` of `make_state`, called on fiber `t`. -/
def State.done (s : State α) (t : ℕ) (p : PromiseId) (r : Reply α) : State α :=
  match (s.promises p).settled with
  | some _ => s.note (.done p r)
  | none => ((s.setPromise p { s.promises p with settled := some r }).note (.done p r)).notify t p r

/-- `results[i] = res` and `left = left - 1` of `gather`. -/
def Gather.collect (G : Gather α) (i : ℕ) (res : Option (Value α)) : Gather α :=
  { G with results := G.results.set i res, left := G.left - 1 }

/-- The function that `gather` passes to the promise at place `i`. -/
def State.collect (s : State α) (t : ℕ) (g : PromiseId) (G : Gather α) (i : ℕ) (r : Reply α) :
    State α :=
  match r.err with
  | some err => s.done t g ⟨none, some err⟩
  | none =>
    let s' := s.setPromise g { s.promises g with gathers := some (G.collect i r.res) }
    if (G.collect i r.res).left = 0 then s'.done t g ⟨some (.results g), none⟩ else s'

/-- A subscriber starts. -/
def State.enter (s : State α) (t : ℕ) (r : Reply α) : Callback → State α
  | .script _ => s.push t .script
  | .gather g i =>
    match (s.promises g).gathers with
    | some G => s.collect t g G i r
    | none => s

/-- `cb(res, err)`. -/
def State.call (s : State α) (t : ℕ) (p : PromiseId) (cb : Callback) (r : Reply α) : State α :=
  (s.note (.called p cb r)).enter t r cb

/-- `subs[#subs + 1] = cb`. -/
def State.wait (s : State α) (p : PromiseId) (cb : Callback) : State α :=
  s.setPromise p { s.promises p with subs := (s.promises p).subs ++ [cb] }

/-- `subscribe(cb)` of `make_state`. A native promise calls its subscribers later, or, if it is
settled, now. -/
def State.subscribe (s : State α) (t : ℕ) (p : PromiseId) (cb : Callback) (now : Bool) : State α :=
  let P := s.promises p
  if P.native then
    let s' := s.note (.subscribed p cb)
    match P.settled, now with
    | some r, true => s'.call t p cb r
    | _, _ => s'.wait p cb
  else
    let s' := (s.setPromise p { P with had_sub := true }).note (.subscribed p cb)
    match P.settled with
    | some r => s'.call t p cb r
    | none => s'.wait p cb

/-- `promise` makes its state. -/
def State.make (s : State α) (P : Promise α) : State α :=
  { s.setPromise s.made P with made := s.made + 1 }

section Make

variable (s : State α) (P : Promise α)

/-- A promise is made under the next number. -/
@[simp] theorem make_self : (s.make P).promises s.made = P := setPromise_self s s.made P

/-- To make a promise changes no stack. -/
@[simp] theorem make_fibers : (s.make P).fibers = s.fibers := rfl

/-- To make a promise is no event. -/
@[simp] theorem make_log : (s.make P).log = s.log := rfl

/-- The promises made before stay as they are. -/
theorem make_ne {q : PromiseId} (h : q ≠ s.made) : (s.make P).promises q = s.promises q :=
  setPromise_ne s s.made P h

end Make

/-- The loop of `gather` from place `i` on. Each promise comes with what a native one does in
`subscribe`. -/
def State.subscribeAll (s : State α) (t : ℕ) (g : PromiseId) : ℕ → List (PromiseId × Bool) → State α
  | _, [] => s
  | i, (p, now) :: rest => (s.subscribe t p (.gather g i) now).subscribeAll t g (i + 1) rest

/-- `gather(promises)`. -/
def State.gather (s : State α) (t : ℕ) (promises : List (PromiseId × Bool)) : State α :=
  let n := promises.length
  let s' := s.make { gathers := some ⟨promises.map Prod.fst, List.replicate n none, n⟩,
                     returned := true }
  if n = 0 then s'.done t s.made ⟨some (.results s.made), none⟩
  else s'.subscribeAll t s.made 0 promises

/-- The executor is over: `promise` returns. -/
def State.return (s : State α) (p : PromiseId) : State α :=
  s.setPromise p { s.promises p with returned := true }

/-- An error leaves the frames down to the next one that catches it. The executor's is rendered by
`debug.traceback`, settles the promise, and `promise` returns. -/
def State.unwind (s : State α) (t : ℕ) (rerr : Value α) : State α :=
  match (s.fibers t).dropWhile (fun frame => !frame.catches) with
  | .executor p :: rest => ((s.setFiber t rest).done t p ⟨none, some rerr⟩).return p
  | _ :: rest => s.setFiber t rest
  | [] => s.setFiber t []

/-- The next iteration of the loop on top of the stack, or the end of a call. -/
def State.next (s : State α) (t : ℕ) : Option (State α) :=
  match s.fibers t with
  | .loop p i :: rest =>
    match (s.promises p).subs[i]?, (s.promises p).settled with
    | some cb, some r => some ((s.setFiber t (.loop p (i + 1) :: rest)).call t p cb r)
    | _, _ => some (s.setFiber t rest)
  | .executor p :: rest => some ((s.setFiber t rest).return p)
  | .pcall :: rest => some (s.setFiber t rest)
  | _ => none

/-- A timer of `done` fires. -/
def State.fire (s : State α) (k : ℕ) : Option (State α) :=
  match s.timers[k]? with
  | some (p, e) =>
    let s' := { s with timers := s.timers.eraseIdx k }
    some (if (s.promises p).had_sub then s' else s'.note (.raised "Unhandled async error: " e))
  | none => none

/-- A native promise that is settled calls the subscriber at place `k` of those it has not
called. -/
def State.deliver (s : State α) (t : ℕ) (p : PromiseId) (k : ℕ) : Option (State α) :=
  let P := s.promises p
  match P.native, P.subs[k]?, P.settled with
  | true, some cb, some r =>
    some (((s.setPromise p { P with subs := P.subs.eraseIdx k }).push t .pcall).call t p cb r)
  | _, _, _ => none

/-! ## Steps -/

/-- What the fiber or the event loop does next. -/
inductive Op (α : Type*) where
  /-- The event loop calls into the script. -/
  | start
  /-- The script calls `promise(executor)`, which runs the executor. -/
  | promise
  /-- The script subscribes. -/
  | subscribe (p : PromiseId) (f : ℕ)
  /-- The script calls the `done` that an executor got. -/
  | done (p : PromiseId) (r : Reply α)
  | gather (promises : List (PromiseId × Bool))
  | pcall
  /-- The script's code on top of the stack returns. -/
  | ret
  /-- The script's code on top of the stack raises; the argument is what `debug.traceback` makes
  of the error. -/
  | raise (rerr : Value α)
  /-- The code of this file that is on top of the stack goes on. -/
  | next
  /-- A timer fires. -/
  | fire (k : ℕ)
  /-- Native code makes a promise. -/
  | native
  /-- Native code settles a promise. -/
  | settle (p : PromiseId) (r : Reply α)
  /-- A native promise calls a subscriber. -/
  | deliver (p : PromiseId) (k : ℕ)
deriving DecidableEq, Repr

/-- The script has the promise. -/
def State.Has (s : State α) (p : PromiseId) : Prop :=
  p < s.made ∧ (s.promises p).returned = true

instance (s : State α) (p : PromiseId) : Decidable (s.Has p) :=
  inferInstanceAs (Decidable (_ ∧ _))

/-- The script has the `done` of the promise: `gather` and native code keep theirs. -/
def State.Settles (s : State α) (p : PromiseId) : Prop :=
  p < s.made ∧ (s.promises p).gathers.isNone = true ∧ (s.promises p).native = false

instance (s : State α) (p : PromiseId) : Decidable (s.Settles p) :=
  inferInstanceAs (Decidable (_ ∧ _))

/-- The operations of script code. -/
def State.script (s : State α) (t : ℕ) (rest : List Frame) : Op α → Option (State α)
  | .promise => some (((s.make {}).push t (.executor s.made)).push t .script)
  | .subscribe p f => if s.Has p then some (s.subscribe t p (.script f) false) else none
  | .done p r => if s.Settles p then some (s.done t p r) else none
  | .gather promises => if ∀ p ∈ promises, s.Has p.1 then some (s.gather t promises) else none
  | .pcall => some ((s.push t .pcall).push t .script)
  | .ret => some (s.setFiber t rest)
  | .raise rerr => some (s.unwind t rerr)
  | _ => none

/-- Native code settles one of its promises. -/
def State.settle (s : State α) (p : PromiseId) (r : Reply α) : Option (State α) :=
  let P := s.promises p
  if p < s.made ∧ P.native = true ∧ P.settled.isNone = true then
    some ((s.setPromise p { P with settled := some r }).note (.done p r))
  else none

/-- One step, on fiber `t`. -/
def step (s : State α) : ℕ × Op α → Option (State α)
  | (t, .start) => if s.fibers t = [] then some (s.setFiber t [.script]) else none
  | (t, .next) => s.next t
  | (_, .fire k) => s.fire k
  | (_, .native) => some (s.make { native := true, returned := true })
  | (_, .settle p r) => s.settle p r
  | (t, .deliver p k) => s.deliver t p k
  | (t, op) =>
    match s.fibers t with
    | .script :: rest => s.script t rest op
    | _ => none

end Radapter.Async
