import Mathlib.Data.List.Basic
import Mathlib.Data.List.Nodup
import Mathlib.Data.List.Perm.Basic
import Mathlib.Logic.Function.Basic
import Radapter.Library.Runs

/-!
# A shared variable set for the duration of a scope

A scope saves the value of a shared variable, sets its own, and puts the saved value back when it
ends. Several threads of control do this to one variable, each with its own stack of scopes, and
any of them may be switched to at any time. The thread that runs finds the value of its innermost
scope as long as threads are switched to only when their innermost scope is the newest of all;
then the scopes end in the reverse order of their beginnings, and each puts back what the one
before it needs.
-/

namespace Library.Scoped

variable {φ V : Type*}

/-- A scope that has begun. -/
structure Frame (V : Type*) where
  saved : V
  own : V

/-- The variable and the threads. -/
structure State (φ V : Type*) where
  current : V
  running : φ
  /-- The open scopes of each thread, the innermost first. -/
  frames : φ → List (Frame V)
  /-- The threads of all open scopes, the newest first. -/
  order : List φ

/-- No scope is open. -/
def start (initial : V) (f : φ) : State φ V := ⟨initial, f, fun _ => [], []⟩

section Machine

variable [DecidableEq φ]

/-- The running thread begins a scope. -/
def enter (s : State φ V) (v : V) : State φ V where
  current := v
  running := s.running
  frames := Function.update s.frames s.running (⟨s.current, v⟩ :: s.frames s.running)
  order := s.running :: s.order

/-- The running thread ends its innermost scope. -/
def leave (s : State φ V) : Option (State φ V) :=
  match s.frames s.running with
  | [] => none
  | frame :: rest =>
      some ⟨frame.saved, s.running, Function.update s.frames s.running rest,
        s.order.erase s.running⟩

/-- Another thread goes on. -/
def switch (s : State φ V) (f : φ) : State φ V := { s with running := f }

/-- The innermost scope of the thread, if it has one, is the newest of all. -/
def Newest (s : State φ V) (f : φ) : Prop := s.frames f = [] ∨ s.order.head? = some f

/-- The running thread finds the value of its innermost scope. -/
def Own (s : State φ V) : Prop :=
  ∀ frame rest, s.frames s.running = frame :: rest → s.current = frame.own

/-- Without open scopes the variable has its first value. -/
def Restored (initial : V) (s : State φ V) : Prop := (∀ f, s.frames f = []) → s.current = initial

/-- Going from the newest scope to the oldest, each has saved the value of the next, and the
scopes that a thread has inside another stand next to it. -/
def Chain (initial : V) : List φ → (φ → List (Frame V)) → V → Prop
  | [], frames, current => (∀ f, frames f = []) ∧ current = initial
  | f :: rest, frames, current =>
      ∃ frame outer, frames f = frame :: outer ∧ current = frame.own ∧
        (outer = [] ∨ rest.head? = some f) ∧
        Chain initial rest (Function.update frames f outer) frame.saved

/-- The scopes are nested, and the running thread is in the newest of them or in none. -/
structure Nested (initial : V) (s : State φ V) : Prop where
  chain : Chain initial s.order s.frames s.current
  running : Newest s s.running

/-- What ending a scope does. -/
theorem leave_cases {s t : State φ V} (h : leave s = some t) :
    ∃ frame rest, s.frames s.running = frame :: rest ∧ t.current = frame.saved ∧
      t.running = s.running ∧ t.frames = Function.update s.frames s.running rest ∧
      t.order = s.order.erase s.running := by
  unfold leave at h
  split at h
  · cases h
  · next frame rest hframes =>
    obtain rfl := Option.some.inj h
    exact ⟨frame, rest, hframes, rfl, rfl, rfl, rfl⟩

/-! ## What keeps scopes nested -/

/-- A scope that ends right after it has begun changes nothing. -/
theorem leave_enter (s : State φ V) (v : V) : leave (enter s v) = some s := by
  simp only [leave, enter, Function.update_self, Function.update_idem, Function.update_eq_self,
    List.erase_cons_head]

/-- Without scopes they are nested. -/
theorem nested_start (initial : V) (f : φ) : Nested initial (start initial f) where
  chain := ⟨fun _ => rfl, rfl⟩
  running := .inl rfl

namespace Nested

variable {initial : V} {s t : State φ V} {f : φ} {v : V}

/-- A new scope is the newest, and saves the value of the one before. -/
theorem enter (hs : Nested initial s) (v : V) : Nested initial (enter s v) where
  chain := by
    refine ⟨⟨s.current, v⟩, s.frames s.running, Function.update_self .., rfl, hs.running, ?_⟩
    have hback : Function.update (Function.update s.frames s.running
        (⟨s.current, v⟩ :: s.frames s.running)) s.running (s.frames s.running) = s.frames := by
      rw [Function.update_idem, Function.update_eq_self]
    show Chain initial s.order (Function.update (Function.update s.frames s.running
      (⟨s.current, v⟩ :: s.frames s.running)) s.running (s.frames s.running)) s.current
    rw [hback]
    exact hs.chain
  running := .inr rfl

/-- The running thread ends the newest scope. -/
theorem leave_order (hs : Nested initial s) (h : Scoped.leave s = some t) :
    ∃ frame outer older, s.frames s.running = frame :: outer ∧ s.order = s.running :: older ∧
      t.current = frame.saved ∧ t.running = s.running ∧
      t.frames = Function.update s.frames s.running outer ∧ t.order = older ∧
      (outer = [] ∨ older.head? = some s.running) ∧
      Chain initial older (Function.update s.frames s.running outer) frame.saved := by
  obtain ⟨frame, outer, hframes, hcurrent, hrunning, htframes, htorder⟩ := leave_cases h
  have hchain := hs.chain
  rcases hs.running with hnone | hnewest
  · rw [hframes] at hnone
    cases hnone
  · cases horder : s.order with
    | nil => simp [horder] at hnewest
    | cons g older =>
      rw [horder] at hnewest hchain
      obtain rfl := Option.some.inj hnewest
      obtain ⟨frame', outer', hframes', -, hnext, hrest⟩ := hchain
      obtain ⟨rfl, rfl⟩ := List.cons_eq_cons.mp (hframes.symm.trans hframes')
      rw [horder, List.erase_cons_head] at htorder
      exact ⟨frame, outer, older, hframes, rfl, hcurrent, hrunning, htframes, htorder, hnext, hrest⟩

/-- The scope that ends gives its value back, and the one before is the newest again. -/
theorem leave (hs : Nested initial s) (h : leave s = some t) : Nested initial t := by
  obtain ⟨frame, outer, older, -, -, hcurrent, hrunning, hframes, horder, hnext, hrest⟩ :=
    hs.leave_order h
  refine ⟨?_, ?_⟩
  · rw [horder, hframes, hcurrent]
    exact hrest
  · rw [Newest, hrunning, hframes, horder, Function.update_self]
    exact hnext

/-- To switch to the thread with the newest scope keeps the nesting. -/
theorem switch (hs : Nested initial s) (h : Newest s f) : Nested initial (switch s f) where
  chain := hs.chain
  running := h

/-- The running thread finds its own value. -/
theorem own (hs : Nested initial s) : Own s := by
  intro frame rest hframes
  rcases hs.running with hnone | hnewest
  · rw [hframes] at hnone
    cases hnone
  · have hchain := hs.chain
    cases ho : s.order with
    | nil => simp [ho] at hnewest
    | cons g older =>
      rw [ho] at hnewest hchain
      obtain rfl := Option.some.inj hnewest
      obtain ⟨frame', outer, hframes', hcurrent, -⟩ := hchain
      obtain ⟨rfl, -⟩ := List.cons_eq_cons.mp (hframes.symm.trans hframes')
      exact hcurrent

/-- When all scopes have ended the variable is what it was. -/
theorem restored (hs : Nested initial s) : Restored initial s := by
  intro hnone
  have hchain := hs.chain
  cases ho : s.order with
  | nil =>
    rw [ho] at hchain
    exact hchain.2
  | cons g older =>
    rw [ho] at hchain
    obtain ⟨frame, outer, hframes, -⟩ := hchain
    rw [hnone g] at hframes
    cases hframes

end Nested

/-! ## What is found after another switch -/

/-- The values of the open scopes, the newest first. -/
def values : List φ → (φ → List (Frame V)) → List V
  | [], _ => []
  | f :: rest, frames =>
      match frames f with
      | [] => values rest frames
      | frame :: outer => frame.own :: values rest (Function.update frames f outer)

/-- The value of a thread's innermost scope is among them. -/
theorem mem_values {initial current : V} {order : List φ} {frames : φ → List (Frame V)}
    (h : Chain initial order frames current) {f : φ} {frame : Frame V} {outer : List (Frame V)}
    (hf : frames f = frame :: outer) : frame.own ∈ values order frames := by
  induction order generalizing frames current with
  | nil =>
    rw [h.1 f] at hf
    cases hf
  | cons g rest ih =>
    obtain ⟨newest, outer', hg, -, -, hrest⟩ := h
    simp only [values, hg]
    by_cases hfg : f = g
    · subst hfg
      obtain ⟨rfl, -⟩ := List.cons_eq_cons.mp (hf.symm.trans hg)
      exact List.mem_cons_self
    · exact List.mem_cons_of_mem _ (ih hrest ((Function.update_of_ne hfg ..).trans hf))

/-- A new scope comes first among the values. -/
theorem values_enter (s : State φ V) (v : V) :
    values (enter s v).order (enter s v).frames = v :: values s.order s.frames := by
  simp only [enter, values, Function.update_self, Function.update_idem, Function.update_eq_self]

/-- The end of a scope takes its value out. -/
theorem Nested.values_leave {initial : V} {s t : State φ V} (hs : Nested initial s)
    (h : Scoped.leave s = some t) :
    (values t.order t.frames).Sublist (values s.order s.frames) := by
  obtain ⟨frame, outer, older, hframes, horder, -, -, htframes, htorder, -, -⟩ := hs.leave_order h
  rw [horder, htorder, htframes]
  simp only [values, hframes]
  exact List.sublist_cons_self ..

/-- When the values of the open scopes differ, a thread that is switched to without being in the
newest scope finds the value of another. -/
theorem Nested.not_own_switch {initial : V} {s : State φ V} (hs : Nested initial s) {f : φ}
    (hdistinct : (values s.order s.frames).Nodup) (h : ¬ Newest s f) :
    ¬ Own (Scoped.switch s f) := by
  intro hown
  obtain ⟨hopen, hnewest⟩ := not_or.mp h
  obtain ⟨frame, outer, hf⟩ := List.exists_cons_of_ne_nil hopen
  have hcurrent : s.current = frame.own := hown frame outer hf
  have hchain := hs.chain
  cases horder : s.order with
  | nil =>
    rw [horder] at hchain
    exact hopen (hchain.1 f)
  | cons g rest =>
    rw [horder] at hchain hnewest hdistinct
    obtain ⟨newest, outer', hg, hown', -, hrest⟩ := hchain
    have hgf : f ≠ g := fun heq => hnewest (by rw [heq]; rfl)
    simp only [values, hg] at hdistinct
    apply (List.nodup_cons.mp hdistinct).1
    rw [← hown', hcurrent]
    exact mem_values hrest ((Function.update_of_ne hgf ..).trans hf)

/-! ## Machines with a scoped variable -/

/-- What a step of a machine does to the variable. -/
inductive Op (φ V : Type*) where
  | skip
  | enter (v : V)
  | leave
  | switch (f : φ)

/-- The effect on the variable. -/
def apply (s : State φ V) : Op φ V → Option (State φ V)
  | .skip => some s
  | .enter v => some (enter s v)
  | .leave => leave s
  | .switch f => some (switch s f)

/-- Threads are switched to only when their innermost scope is the newest. -/
def Orderly (s : State φ V) : Op φ V → Prop
  | .switch f => Newest s f
  | _ => True

instance (s : State φ V) [DecidableEq V] : (o : Op φ V) → Decidable (Orderly s o)
  | .switch f => inferInstanceAs (Decidable (s.frames f = [] ∨ s.order.head? = some f))
  | .skip => isTrue trivial
  | .enter _ => isTrue trivial
  | .leave => isTrue trivial

/-- Every orderly step keeps the scopes nested. -/
theorem Nested.apply {initial : V} {s t : State φ V} {o : Op φ V} (hs : Nested initial s)
    (ho : Orderly s o) (h : Scoped.apply s o = some t) : Nested initial t := by
  cases o with
  | skip =>
    obtain rfl := Option.some.inj h
    exact hs
  | enter v =>
    obtain rfl := Option.some.inj h
    exact hs.enter v
  | leave => exact hs.leave h
  | switch f =>
    obtain rfl := Option.some.inj h
    exact hs.switch ho

section Runs

variable {σ α : Type*} {step : σ → α → Option σ} (scope : σ → State φ V) (op : σ → α → Op φ V)

/-- In a run whose switches are orderly the running thread always finds its own value, and the
variable is restored when no scope is open. -/
theorem own_of_along
    (hstep : ∀ {s a t}, step s a = some t → Scoped.apply (scope s) (op s a) = some (scope t))
    {initial : V} {s : σ} (hs : Nested initial (scope s)) {actions : List α}
    (hgood : Along step (fun s a => Orderly (scope s) (op s a)) s actions) {done : List α}
    (hdone : done <+: actions) {t : σ} (hrun : run step s done = some t) :
    Own (scope t) ∧ Restored initial (scope t) := by
  have hkeep : ∀ {s a t}, Nested initial (scope s) → Orderly (scope s) (op s a) →
      step s a = some t → Nested initial (scope t) := fun hs hk h => hs.apply hk (hstep h)
  have hnested := run_invariant hkeep hs hgood hdone hrun
  exact ⟨hnested.own, hnested.restored⟩

variable (step) in
/-- The values of the scopes that a run begins. -/
def entered : σ → List α → List V
  | _, [] => []
  | s, a :: rest =>
      match step s a with
      | none => []
      | some t =>
          match op s a with
          | .enter v => v :: entered t rest
          | _ => entered t rest

/-- When the values of all scopes differ, the running thread always finds its own value only if
the switches are orderly. -/
theorem along_of_own
    (hstep : ∀ {s a t}, step s a = some t → Scoped.apply (scope s) (op s a) = some (scope t))
    {initial : V} {s : σ} (hs : Nested initial (scope s)) {actions : List α}
    (hdistinct : (values (scope s).order (scope s).frames ++ entered step op s actions).Nodup)
    {u : σ} (hrun : run step s actions = some u)
    (hown : ∀ done t, done <+: actions → run step s done = some t → Own (scope t)) :
    Along step (fun s a => Orderly (scope s) (op s a)) s actions := by
  induction actions generalizing s with
  | nil => trivial
  | cons a rest ih =>
    obtain ⟨t, ht, hrest⟩ := Option.bind_eq_some_iff.mp hrun
    have happly := hstep ht
    have hgood : Orderly (scope s) (op s a) := by
      cases hop : op s a with
      | skip => trivial
      | enter v => trivial
      | leave => trivial
      | switch f =>
        rw [hop] at happly
        by_contra hnot
        have hone : run step s [a] = some t := by simp [run, ht]
        have hbad := hs.not_own_switch hdistinct.of_append_left hnot
        rw [Option.some.inj happly] at hbad
        exact hbad (hown [a] t ⟨rest, rfl⟩ hone)
    refine Along.cons hgood ht (ih (hs.apply hgood happly) ?_ hrest ?_)
    · -- the values of the scopes that are open and of those to come
      rw [entered, ht] at hdistinct
      cases hop : op s a with
      | skip =>
        simp only [hop] at hdistinct happly
        rw [← Option.some.inj happly]
        exact hdistinct
      | switch f =>
        simp only [hop] at hdistinct happly
        rw [← Option.some.inj happly]
        exact hdistinct
      | leave =>
        simp only [hop] at hdistinct happly
        exact hdistinct.sublist ((hs.values_leave happly).append_right _)
      | enter v =>
        simp only [hop] at hdistinct happly
        rw [← Option.some.inj happly, values_enter]
        exact (List.perm_middle.nodup_iff.mp hdistinct)
    · intro done w hdone hw
      apply hown (a :: done) w (List.cons_prefix_cons.mpr ⟨rfl, hdone⟩)
      simp [run, ht, hw]

end Runs

end Machine

end Library.Scoped
