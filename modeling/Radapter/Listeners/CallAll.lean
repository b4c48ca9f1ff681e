import Radapter.Library.Runs
import Mathlib.Data.List.Nodup

/-!
# Delivering a message to the listeners of a worker

Every pipable object has a table of listeners. `connect` appends a listener to it, the function
returned by `pipe` removes its own again, and `call_all` hands a message to all of them. The
table is walked with `ipairs` while the listeners run, and they may connect and cancel
as they like: `match_msg`, for one, cancels itself at its first match.

A delivery is modelled as a machine whose steps are the rounds of `ipairs` and the changes made
to the table in between. Removing an entry moves the later ones down, so a listener is passed
over when one that was reached before it is removed.
-/

namespace Radapter.Listeners

open Library

/-- The table behind `get_listeners`. A listener is a closure that `connect` makes afresh, so no
two entries are equal. -/
structure Table where
  /-- The entries at the positions `1`, `2` and so on. -/
  items : List ℕ
  /-- The identity of the next closure. -/
  fresh : ℕ
  nodup : items.Nodup
  lt_fresh : ∀ listener ∈ items, listener < fresh

/-- `connect`: a new closure is stored behind the last entry. -/
def Table.connect (all : Table) : Table where
  items := all.items ++ [all.fresh]
  fresh := all.fresh + 1
  nodup := by
    rw [← List.concat_eq_append]
    refine List.Nodup.concat ?_ all.nodup
    intro hmem
    exact absurd (all.lt_fresh _ hmem) (Nat.lt_irrefl _)
  lt_fresh := by
    intro listener hmem
    rcases List.mem_append.mp hmem with hmem | hmem
    · exact Nat.lt_succ_of_lt (all.lt_fresh _ hmem)
    · rw [List.mem_singleton.mp hmem]
      exact Nat.lt_succ_self _

/-- The loop of `cancel`: the table is searched from its end and `table.remove` closes the gap. -/
def removeLast (items : List ℕ) (fn : ℕ) : List ℕ := (items.reverse.erase fn).reverse

/-- In a table without repetitions it does not matter where the search starts. -/
theorem removeLast_eq_erase {items : List ℕ} (h : items.Nodup) (fn : ℕ) :
    removeLast items fn = items.erase fn := by
  rw [removeLast, (List.nodup_reverse.mpr h).erase_eq_filter, h.erase_eq_filter,
    List.filter_reverse, List.reverse_reverse]

/-- `cancel` for one of the connections of a pipe. -/
def Table.cancel (all : Table) (fn : ℕ) : Table where
  items := removeLast all.items fn
  fresh := all.fresh
  nodup := by
    rw [removeLast_eq_erase all.nodup]
    exact all.nodup.erase fn
  lt_fresh := by
    intro listener hmem
    rw [removeLast_eq_erase all.nodup] at hmem
    exact all.lt_fresh _ (List.mem_of_mem_erase hmem)

variable {M : Type*}

/-- What happens to a listener during a delivery. -/
inductive Event (M : Type*) where
  | called (listener : ℕ) (msg : M)
  | cancelled (listener : ℕ)
  deriving DecidableEq

/-- A running `call_all`. -/
structure Delivery (M : Type*) where
  all : Table
  /-- The argument of `call_all` that every listener gets. -/
  msg : M
  /-- The control variable of `ipairs`: how many positions have been visited. -/
  turn : ℕ
  /-- The loop has met the end of the table. -/
  done : Bool
  log : List (Event M)

/-- `call_all` before its first round. -/
def call_all (all : Table) (msg : M) : Delivery M := ⟨all, msg, 0, false, []⟩

/-- A round of the loop, or a change a listener makes to the table. -/
inductive Action where
  | next
  | connect
  | cancel (fn : ℕ)
  deriving DecidableEq

/-- One step of a delivery that has not ended. -/
def step (s : Delivery M) (a : Action) : Option (Delivery M) :=
  if s.done then none
  else
    match a with
    | .next =>
        match s.all.items[s.turn]? with
        | some listener =>
            some { s with turn := s.turn + 1, log := s.log ++ [.called listener s.msg] }
        | none => some { s with done := true }
    | .connect => some { s with all := s.all.connect }
    | .cancel fn => some { s with all := s.all.cancel fn, log := s.log ++ [.cancelled fn] }

/-- The listeners called so far, in order. -/
def called : List (Event M) → List ℕ
  | [] => []
  | .called listener _ :: log => listener :: called log
  | .cancelled _ :: log => called log

/-- The messages a listener was called with. -/
def received (listener : ℕ) : List (Event M) → List M
  | [] => []
  | .called l msg :: log => if l = listener then msg :: received listener log
      else received listener log
  | .cancelled _ :: log => received listener log

/-- A listener of the list `start` was cancelled when only listeners standing before it in that
list had been called. -/
def CancelledBeforeTurn (start : List ℕ) (log : List (Event M)) (listener : ℕ) : Prop :=
  ∃ before after, log = before ++ .cancelled listener :: after ∧
    ∀ l ∈ called before, l ∈ start.takeWhile (· ≠ listener)

/-- What a delivery owes the listeners it started with: none is called twice or with another
message, and when the loop has ended, or as many rounds have been made as there were listeners,
each has been called unless it was cancelled before its turn. -/
def Serves (start : List ℕ) (msg : M) (s : Delivery M) : Prop :=
  (∀ listener ∈ start, received listener s.log = [] ∨ received listener s.log = [msg]) ∧
  (s.done = true ∨ start.length ≤ (called s.log).length →
    ∀ listener ∈ start,
      received listener s.log = [msg] ∨ CancelledBeforeTurn start s.log listener)

/-- A change to the table moves no listener of the list `start` past its turn: while one of them
still waits, no listener is cancelled that the loop has already reached. -/
def Harmless (start : List ℕ) (s : Delivery M) : Action → Prop
  | .cancel fn =>
      fn ∈ s.all.items.take s.turn → ∀ waiting ∈ s.all.items.drop s.turn, waiting ∉ start
  | _ => True

instance (start : List ℕ) (s : Delivery M) : (a : Action) → Decidable (Harmless start s a)
  | .next => isTrue trivial
  | .connect => isTrue trivial
  | .cancel fn => inferInstanceAs (Decidable (fn ∈ s.all.items.take s.turn →
      ∀ waiting ∈ s.all.items.drop s.turn, waiting ∉ start))

/-! ## Steps and logs -/

/-- What a step does. -/
theorem step_cases {s t : Delivery M} {a : Action} (h : step s a = some t) :
    s.done = false ∧
      ((∃ listener, a = .next ∧ s.all.items[s.turn]? = some listener ∧
          t = { s with turn := s.turn + 1, log := s.log ++ [.called listener s.msg] }) ∨
        (a = .next ∧ s.all.items[s.turn]? = none ∧ t = { s with done := true }) ∨
        (a = .connect ∧ t = { s with all := s.all.connect }) ∨
        ∃ fn, a = .cancel fn ∧
          t = { s with all := s.all.cancel fn, log := s.log ++ [.cancelled fn] }) := by
  unfold step at h
  split at h
  · cases h
  · next hdone =>
    refine ⟨by simpa using hdone, ?_⟩
    cases a with
    | next =>
      cases hitem : s.all.items[s.turn]? with
      | some listener =>
        simp only [hitem, Option.some.injEq] at h
        exact .inl ⟨listener, rfl, rfl, h.symm⟩
      | none =>
        simp only [hitem, Option.some.injEq] at h
        exact .inr (.inl ⟨rfl, rfl, h.symm⟩)
    | connect => exact .inr (.inr (.inl ⟨rfl, (Option.some.inj h).symm⟩))
    | cancel fn => exact .inr (.inr (.inr ⟨fn, rfl, (Option.some.inj h).symm⟩))

/-- What was called in one part of the log after another. -/
@[simp] theorem called_append (log more : List (Event M)) :
    called (log ++ more) = called log ++ called more := by
  induction log with
  | nil => rfl
  | cons e log ih => cases e <;> simp [called, ih]

/-- A listener that was called only with `msg` received it once per call. -/
theorem received_eq_replicate {log : List (Event M)} {msg : M}
    (h : ∀ l m, .called l m ∈ log → m = msg) (listener : ℕ) :
    received listener log = List.replicate ((called log).count listener) msg := by
  induction log with
  | nil => rfl
  | cons e log ih =>
    have hlog := ih (fun l m hm => h l m (List.mem_cons_of_mem _ hm))
    cases e with
    | cancelled l => simpa [received, called] using hlog
    | called l m =>
      have hm : m = msg := h l m (List.mem_cons_self ..)
      by_cases hl : l = listener
      · simp [received, called, hl, hlog, hm, List.replicate_succ]
      · simp [received, called, hl, hlog]

/-- A cancellation before the listener's turn stays one. -/
theorem CancelledBeforeTurn.append {start : List ℕ} {log : List (Event M)} {listener : ℕ}
    (h : CancelledBeforeTurn start log listener) (more : List (Event M)) :
    CancelledBeforeTurn start (log ++ more) listener := by
  obtain ⟨before, after, rfl, hbefore⟩ := h
  exact ⟨before, after ++ more, by simp, hbefore⟩

end Radapter.Listeners
