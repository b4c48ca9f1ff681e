import Radapter.Registry.Owners

/-!
# References as plain variables

What the program means with its references: variables that have Lua values, and nothing else. The
program with its registry does what it would do with such variables, as long as no timer is
collected while its function runs.
-/

namespace Radapter.Registry

open Library

/-- Variables with Lua values. -/
structure Plain where
  held : Owner → Option Obj := fun _ => none
  oneshot : ℕ → Bool := fun _ => false

namespace Plain

/-- A variable is given a value. -/
def set (p : Plain) (o : Owner) (x : Option Obj) : Plain :=
  { p with held := Function.update p.held o x }

/-- A value goes from one variable to another. -/
def shift (p : Plain) (i j : Owner) : Plain := (p.set j none).set i (p.held j)

/-- The actions on plain variables. -/
def step (p : Plain) : Action → Plain
  | .construct i x _ => p.set (.value i) x
  | .copy i j _ => p.set (.value i) (p.held (.value j))
  | .move i j => p.shift (.value i) (.value j)
  | .assign i j _ => if i = j then p else p.set (.value i) (p.held (.value j))
  | .assignMove i j => if i = j then p else p.shift (.value i) (.value j)
  | .destroy i => p.set (.value i) none
  | .timer t oneshot userdata function _ _ =>
      { (p.set (.timer t) (some userdata)).set (.callback t) (some function) with
        oneshot := Function.update p.oneshot t oneshot }
  | .stopTimer t => p.set (.timer t) none
  | .timeout t i _ => p.set (.value i) (p.held (.callback t))
  | .returned t => if p.oneshot t then (p.set (.timer t) none).set (.callback t) none else p
  | .raised _ => p
  | .collect t => (p.set (.timer t) none).set (.callback t) none
  | .shutdown => p
  | .push_worker w userdata _ => p.set (.worker w) (some userdata)
  | .destroyed w => p.set (.worker w) none
  | .worker_notify w i _ => p.set (.value i) (p.held (.worker w))
  | .log_handler x _ => p.set .logHandler x
  | .log i _ => p.set (.value i) (p.held .logHandler)

end Plain

/-- What holds of a timer, with the number of its callbacks that have not returned. -/
structure Timer.Good (timer : Timer) (p : Plain) (t calling : ℕ) : Prop where
  /-- A timer that is active is anchored, and has the function that it was made with. -/
  active : timer.active = true →
    p.held (.timer t) = some timer.userdata ∧ p.held (.callback t) = some timer.function
  /-- A single shot is not active any more when its function runs. -/
  calling : timer.singleShot = true → calling ≠ 0 → timer.active = false
  oneshot : p.oneshot t = timer.singleShot
  /-- What is anchored is the userdata. -/
  anchored : ∀ {x}, p.held (.timer t) = some x → x = timer.userdata
  /-- The closure has its state as long as the timer has a reference. -/
  state : 0 ≤ timer.objectName → timer.f.L = true

/-- What holds of the timers. Only one that is there can call. -/
structure Timed (s : State) (p : Plain) : Prop where
  good : ∀ {t timer}, s.timers t = some timer → timer.Good p t (s.calling t)
  there : ∀ {t}, s.timers t = none → s.calling t = 0

/-- The program has the values of the plain variables, and has misused nothing. -/
structure Refines (s : State) (p : Plain) : Prop where
  serves : Serves s.table s.slot p.held
  timed : Timed s p

/-- No timer is collected while its function runs. -/
def Kept (s : State) : Action → Prop
  | .collect t => s.calling t = 0
  | _ => True

instance (s : State) (a : Action) : Decidable (Kept s a) := by
  cases a with
  | collect t => exact inferInstanceAs (Decidable (s.calling t = 0))
  | _ => exact isTrue trivial

section Steps

variable {s s' : State} {p : Plain}

/-- A timer stays good while what it holds does. -/
theorem Timer.Good.of_held {timer : Timer} {p' : Plain} {t calling : ℕ}
    (h : timer.Good p t calling)
    (hheld : p'.held (.timer t) = p.held (.timer t) ∧ p'.held (.callback t) = p.held (.callback t))
    (honeshot : p'.oneshot t = p.oneshot t) : timer.Good p' t calling where
  active := by
    rw [hheld.1, hheld.2]
    exact h.active
  calling := h.calling
  oneshot := honeshot.trans h.oneshot
  anchored := by
    rw [hheld.1]
    exact h.anchored
  state := h.state

/-- The timers stay as they are. -/
theorem Timed.of_held (h : Timed s p) (htimers : s'.timers = s.timers)
    (hcalling : s'.calling = s.calling) {p' : Plain}
    (hheld : ∀ t, p'.held (.timer t) = p.held (.timer t) ∧
      p'.held (.callback t) = p.held (.callback t))
    (honeshot : p'.oneshot = p.oneshot) : Timed s' p' where
  good := by
    rw [htimers, hcalling]
    exact fun {t} _ ht => (h.good ht).of_held (hheld t) (congrFun honeshot t)
  there := by
    rw [htimers, hcalling]
    exact h.there

/-- A variable that is no timer's changes. -/
theorem Timed.set (h : Timed s p) {o : Owner} (ho : ∀ t, o ≠ .timer t ∧ o ≠ .callback t)
    (htimers : s'.timers = s.timers) (hcalling : s'.calling = s.calling) (x : Option Obj) :
    Timed s' (p.set o x) := by
  apply h.of_held htimers hcalling
  · intro t
    exact ⟨Function.update_of_ne (ho t).1.symm .., Function.update_of_ne (ho t).2.symm ..⟩
  · rfl

/-- One timer changes. -/
theorem Timed.setTimer (h : Timed s p) {t : ℕ} {timer : Timer} {p' : Plain}
    (hheld : ∀ t' ≠ t, p'.held (.timer t') = p.held (.timer t') ∧
      p'.held (.callback t') = p.held (.callback t'))
    (honeshot : ∀ t' ≠ t, p'.oneshot t' = p.oneshot t')
    (htimers : s'.timers = Function.update s.timers t (some timer))
    (hcalling : ∀ t' ≠ t, s'.calling t' = s.calling t')
    (hgood : timer.Good p' t (s'.calling t)) : Timed s' p' where
  good := by
    intro t' timer' ht'
    rw [htimers] at ht'
    by_cases ht : t' = t
    · rw [ht, Function.update_self] at ht'
      rw [ht, ← Option.some.inj ht']
      exact hgood
    · rw [Function.update_of_ne ht] at ht'
      rw [hcalling t' ht]
      exact (h.good ht').of_held (hheld t' ht) (honeshot t' ht)
  there := by
    intro t' ht'
    rw [htimers] at ht'
    by_cases ht : t' = t
    · rw [ht, Function.update_self] at ht'
      cases ht'
    · rw [Function.update_of_ne ht] at ht'
      rw [hcalling t' ht]
      exact h.there ht'

/-- A value that there is not has no key. -/
theorem slot_of_vacant {i : ℕ} (hi : s.vacant i) : s.slot (.value i) = none := by
  rw [State.slot, LuaValue.slot, hi]
  rfl

/-- A value in an empty place. -/
theorem Refines.setValue (h : Refines s p) {i : ℕ} {x : Option Obj} {table : Table} {v : LuaValue}
    (hserves : Serves table (Function.update s.slot (.value i) v.slot)
      (Function.update p.held (.value i) x)) :
    Refines ({ s with table }.setValue i v) (p.set (.value i) x) where
  serves := by
    rw [slot_setValue]
    exact hserves
  timed := h.timed.set (by simp) (by rfl) (by rfl) x

/-- A new object of the value of a reference. -/
theorem Refines.take (h : Refines s p) {i : ℕ} {x : Option Obj} {key : ℕ}
    (ht : s.take i x key = some s') : Refines s' (p.set (.value i) x) := by
  rw [State.take] at ht
  split_ifs at ht with hi
  obtain ⟨⟨table, v⟩, hv, hpair⟩ := Option.bind_eq_some_iff.mp ht
  obtain rfl := Option.some.inj hpair
  exact h.setValue (h.serves.ofStack (slot_of_vacant hi) hv)

/-- A value passes from one place to an empty one. -/
theorem Refines.shift (h : Refines s p) {i j : ℕ} (hij : i ≠ j)
    (hi : s.slot (.value i) = none) :
    Refines ((s.setValue i (s.values j)).setValue j (s.values j).moved)
      (p.shift (.value i) (.value j)) where
  serves := by
    have hne : Owner.value j ≠ .value i := fun heq => hij (Owner.value.inj heq).symm
    have hpass := h.serves.pass hne hi
    have hmoved : (s.values j).moved.slot = none := rfl
    rw [slot_setValue, slot_setValue, hmoved, Function.update_comm hne.symm]
    exact hpass
  timed := by
    have hleft : Timed s (p.set (.value j) none) := h.timed.set (by simp) (by rfl) (by rfl) none
    exact hleft.set (by simp) (by rfl) (by rfl) (p.held (.value j))

/-- A timer is made. -/
theorem Refines.startTimer (h : Refines s p) {t : ℕ} {oneshot : Bool} {userdata function : Obj}
    {self key : ℕ} (ht : s.startTimer t oneshot userdata function self key = some s') :
    Refines s' (p.step (.timer t oneshot userdata function self key)) := by
  rw [State.startTimer] at ht
  split at ht
  · cases ht
  · next hnone =>
    obtain ⟨⟨table, ref⟩, href, ht⟩ := Option.bind_eq_some_iff.mp ht
    obtain ⟨⟨table', f⟩, hf, hpair⟩ := Option.bind_eq_some_iff.mp ht
    obtain rfl := Option.some.inj hpair
    have hself : s.slot (.timer t) = none := by rw [State.slot, hnone, Option.bind_none]
    have hcallback : Function.update s.slot (.timer t) (slotOf ref) (.callback t) = none := by
      rw [Function.update_of_ne (by simp), State.slot, hnone, Option.bind_none]
    refine ⟨?_, ?_⟩
    · rw [slot_setTimer]
      exact (h.serves.luaL_ref hself href).ofStack hcallback hf
    · obtain ⟨⟨u, ref'⟩, -, hpair⟩ := Option.bind_eq_some_iff.mp hf
      obtain ⟨-, rfl⟩ := Prod.mk.inj (Option.some.inj hpair)
      apply h.timed.setTimer (t := t)
      · intro t' ht'
        simp [Plain.step, Plain.set, ht']
      · intro t' ht'
        simp [Plain.step, ht']
      · rfl
      · intro t' ht'
        rfl
      · refine ⟨fun _ => ?_, fun _ hcalling => ?_, ?_, fun hx => ?_, fun _ => rfl⟩
        · simp [Plain.step, Plain.set]
        · exact absurd (h.timed.there hnone) hcalling
        · simp [Plain.step]
        · simpa [Plain.step, Plain.set] using hx.symm

end Steps

end Radapter.Registry
