import Radapter.Library.Runs
import Radapter.Text
import Mathlib.Data.List.Nodup
import Mathlib.Data.List.Sort

/-!
# The transmit queue

`processTx` writes the frames of libcanard's queue to the device, the first one at a time, and pops
a frame once it is written or has expired. `writeFrame` may call the worker back, which pushes
frames of any priority and calls `processTx` again. The frame being written may then no longer be
the first of the queue, and a call that is not kept out by `in_process_tx` would write and pop
frames under the other.

The worker is a machine here in which any call that is under way takes the next step, so that calls
may be nested in any way or wait for each other. The file shows that there is never more than one
past the guard, and that the queue holds the frames that were neither handed over nor expired.
-/

namespace Radapter.Cyphal.Transmit

open Library

/-! ## The queue of libcanard -/

/-- `CanardTxQueueItem`. -/
structure CanardTxQueueItem where
  tx_deadline_usec : ℕ
  extended_can_id : ℕ
  payload : Bytes
  deriving DecidableEq, Repr

/-- A pointer to an item of the queue: frames are numbered as they are pushed. -/
abbrev ItemPtr := ℕ × CanardTxQueueItem

/-- What `processTx` relies on of a queue: pushing an item adds it, peeking returns an item of the
queue unless it is empty, and popping removes exactly the item given. -/
structure CanardTxQueue (Q : Type) where
  canardTxInit : Q
  canardTxPush : Q → ItemPtr → Q
  canardTxPeek : Q → Option ItemPtr
  canardTxPop : Q → ItemPtr → Q
  Holds : Q → ItemPtr → Prop
  holds_init : ∀ ti, ¬ Holds canardTxInit ti
  holds_push : ∀ q ti other, Holds (canardTxPush q ti) other ↔ Holds q other ∨ other = ti
  holds_peek : ∀ q ti, canardTxPeek q = some ti → Holds q ti
  peek_eq_none : ∀ q, canardTxPeek q = none → ∀ ti, ¬ Holds q ti
  holds_pop : ∀ q ti, Holds q ti →
    ∀ other, Holds (canardTxPop q ti) other ↔ Holds q other ∧ other ≠ ti

/-- The order of the bus: the item with the smaller identifier comes first, and of two with one
identifier the one that was pushed first. -/
abbrev ItemPtr.Before (a b : ItemPtr) : Prop :=
  a.2.extended_can_id < b.2.extended_can_id ∨
    a.2.extended_can_id = b.2.extended_can_id ∧ a.1 ≤ b.1

/-- A queue kept in the order of the bus. -/
def orderedQueue : CanardTxQueue (List ItemPtr) where
  canardTxInit := []
  canardTxPush q ti := q.orderedInsert ItemPtr.Before ti
  canardTxPeek := List.head?
  canardTxPop q ti := q.filter (fun other => other ≠ ti)
  Holds q ti := ti ∈ q
  holds_init _ := List.not_mem_nil
  holds_push q ti other := by rw [List.mem_orderedInsert, or_comm]
  holds_peek _ _ h := List.mem_of_mem_head? h
  peek_eq_none q h ti hti := by
    rw [List.head?_eq_none_iff.mp h] at hti
    exact List.not_mem_nil hti
  holds_pop q ti _ other := by rw [List.mem_filter, decide_eq_true_eq]

/-! ## The worker -/

/-- `QCanBusFrame`. -/
structure QCanBusFrame where
  extendedFrameFormat : Bool
  frameId : ℕ
  payload : Bytes
  flexibleDataRateFormat : Bool
  bitrateSwitch : Bool
  deriving DecidableEq, Repr

/-- The frame that `processTx` makes of an item. -/
def toFrame (is_fd : Bool) (ti : CanardTxQueueItem) : QCanBusFrame where
  extendedFrameFormat := true
  frameId := ti.extended_can_id
  payload := ti.payload
  flexibleDataRateFormat := is_fd
  bitrateSwitch := is_fd

/-- Where a call of `processTx` past its guard stands. -/
inductive Call where
  /-- At the head of its loop. -/
  | loop
  /-- In the warning about an expired item, with the time it was found expired at. -/
  | dropping (ti : ItemPtr) (now : ℕ)
  /-- In `writeFrame`. -/
  | writing (ti : ItemPtr)
  /-- In the error about a worker that is gone or a frame that was not written. -/
  | reporting
  deriving DecidableEq, Repr

/-- The item that a call holds a pointer to. -/
def Call.item? : Call → Option ItemPtr
  | .loop => none
  | .dropping ti _ => some ti
  | .writing ti => some ti
  | .reporting => none

/-- The item is not sent any more at the time `now`. -/
def CanardTxQueueItem.Due (ti : CanardTxQueueItem) (now : ℕ) : Prop :=
  ti.tx_deadline_usec ≠ 0 ∧ ti.tx_deadline_usec ≤ now

instance (ti : CanardTxQueueItem) (now : ℕ) : Decidable (ti.Due now) :=
  inferInstanceAs (Decidable (_ ∧ _))

/-- The transmit side of a worker, with the frames pushed so far, the ones that `writeFrame` took
and the ones that expired. -/
structure Transmitter (Q : Type) where
  tx : Q
  in_process_tx : Bool
  calls : List Call
  pushed : List CanardTxQueueItem
  handed : List (ℕ × QCanBusFrame)
  expired : List (ℕ × ℕ)

/-- What happens on the transmit side. -/
inductive Action where
  /-- `canardTxPush` queues a frame of a transfer. -/
  | push (item : CanardTxQueueItem)
  /-- `processTx` is called; `alive` says whether the CAN worker still exists. -/
  | processTx (alive : Bool)
  /-- A call looks at the first item of the queue, at the time `now`. -/
  | peek (k : ℕ) (now : ℕ)
  /-- The warning about an expired item has been given. -/
  | warned (k : ℕ)
  /-- `writeFrame` returns. -/
  | written (k : ℕ) (ok : Bool)
  /-- The error has been given, and the call ends. -/
  | reported (k : ℕ)
  /-- An exception leaves a warning, an error or `writeFrame`, and with it the call. -/
  | threw (k : ℕ)
  deriving DecidableEq, Repr

section Machine

variable {Q : Type} (T : CanardTxQueue Q) (is_fd : Bool)

/-- Before the first frame is pushed. -/
def Transmitter.init : Transmitter Q := ⟨T.canardTxInit, false, [], [], [], []⟩

/-- A call ends, and `reset` clears the flag. -/
def Transmitter.return (s : Transmitter Q) (k : ℕ) : Transmitter Q :=
  { s with in_process_tx := false, calls := s.calls.eraseIdx k }

/-- `canardTxPop`, and the call goes on at the head of its loop. -/
def Transmitter.pop (s : Transmitter Q) (k : ℕ) (ti : ItemPtr) : Transmitter Q :=
  { s with tx := T.canardTxPop s.tx ti, calls := s.calls.set k .loop }

/-- A call has looked at the queue. -/
def Transmitter.peek (s : Transmitter Q) (k now : ℕ) : Transmitter Q :=
  match T.canardTxPeek s.tx with
  | none => s.return k
  | some ti =>
      { s with
        calls := s.calls.set k (if ti.2.Due now then .dropping ti now else .writing ti) }

/-- A step of the transmit side. -/
def Transmitter.step (s : Transmitter Q) : Action → Option (Transmitter Q)
  | .push item =>
      some { s with
        tx := T.canardTxPush s.tx (s.pushed.length, item)
        pushed := s.pushed ++ [item] }
  | .processTx alive =>
      if s.in_process_tx then some s
      else some { s with
        in_process_tx := true
        calls := s.calls ++ [if alive then .loop else .reporting] }
  | .peek k now => if s.calls[k]? = some .loop then some (s.peek T k now) else none
  | .warned k =>
      match s.calls[k]? with
      | some (.dropping ti now) =>
          some { s.pop T k ti with expired := s.expired ++ [(ti.1, now)] }
      | _ => none
  | .written k ok =>
      match s.calls[k]? with
      | some (.writing ti) =>
          if ok then
            some { s.pop T k ti with handed := s.handed ++ [(ti.1, toFrame is_fd ti.2)] }
          else some { s with calls := s.calls.set k .reporting }
      | _ => none
  | .reported k => if s.calls[k]? = some .reporting then some (s.return k) else none
  | .threw k =>
      match s.calls[k]? with
      | none => none
      | some .loop => none
      | some _ => some (s.return k)

/-! ## What holds at every point of a run -/

/-- The frames that left the queue. -/
def Transmitter.gone (s : Transmitter Q) : List ℕ :=
  s.handed.map Prod.fst ++ s.expired.map Prod.fst

/-- The queue holds the frames pushed that are not gone, each of which went once. -/
structure Accounts (tx : Q) (pushed : List CanardTxQueueItem) (gone : List ℕ) : Prop where
  holds_iff : ∀ ti, T.Holds tx ti ↔ pushed[ti.1]? = some ti.2 ∧ ti.1 ∉ gone
  once : gone.Nodup
  pushed : ∀ n ∈ gone, n < pushed.length

variable {T}

/-- An empty queue accounts for no frames. -/
theorem Accounts.init : Accounts T T.canardTxInit [] [] where
  holds_iff ti := by simp [T.holds_init]
  once := List.nodup_nil
  pushed := by simp

/-- A frame pushed is a new one. -/
theorem Accounts.push {tx : Q} {pushed : List CanardTxQueueItem} {gone : List ℕ}
    (h : Accounts T tx pushed gone) (item : CanardTxQueueItem) :
    Accounts T (T.canardTxPush tx (pushed.length, item)) (pushed ++ [item]) gone := by
  refine ⟨fun ti => ?_, h.once, fun n hn => ?_⟩
  · have hnew : pushed.length ∉ gone := fun hmem => absurd (h.pushed _ hmem) (lt_irrefl _)
    obtain ⟨n, other⟩ := ti
    rw [T.holds_push, h.holds_iff, List.getElem?_append]
    rcases lt_trichotomy n pushed.length with hlt | rfl | hgt
    · simp [hlt, hlt.ne]
    · simp [hnew, eq_comm]
    · simp [hgt.not_gt, hgt.ne', Nat.sub_ne_zero_of_lt hgt]
  · rw [List.length_append]
    exact Nat.lt_add_right _ (h.pushed n hn)

/-- A frame that the queue holds and that is popped is gone. -/
theorem Accounts.pop {tx : Q} {pushed : List CanardTxQueueItem} {gone more : List ℕ} {ti : ItemPtr}
    (h : Accounts T tx pushed gone) (hti : T.Holds tx ti) (hmore : more.Perm (ti.1 :: gone)) :
    Accounts T (T.canardTxPop tx ti) pushed more := by
  obtain ⟨hpushed, hnew⟩ := (h.holds_iff ti).mp hti
  refine ⟨fun other => ?_, ?_, fun n hn => ?_⟩
  · rw [T.holds_pop tx ti hti, h.holds_iff, hmore.mem_iff, List.mem_cons, not_or]
    -- two items with one number are the same item
    have hsame : pushed[other.1]? = some other.2 → (other ≠ ti ↔ other.1 ≠ ti.1) := by
      intro hother
      refine not_congr ⟨fun heq => heq ▸ rfl, fun heq => Prod.ext heq ?_⟩
      rw [heq, hpushed] at hother
      exact (Option.some.inj hother).symm
    constructor
    · rintro ⟨⟨hother, hgone⟩, hne⟩
      exact ⟨hother, (hsame hother).mp hne, hgone⟩
    · rintro ⟨hother, hne, hgone⟩
      exact ⟨⟨hother, hgone⟩, (hsame hother).mpr hne⟩
  · exact hmore.nodup_iff.mpr (List.nodup_cons.mpr ⟨hnew, h.once⟩)
  · rcases List.mem_cons.mp (hmore.mem_iff.mp hn) with rfl | hold
    · exact (List.getElem?_eq_some_iff.mp hpushed).1
    · exact h.pushed n hold

variable (T)

/-- What holds of the transmit side at every point of a run. -/
structure Sound (s : Transmitter Q) : Prop where
  accounts : Accounts T s.tx s.pushed s.gone
  guard : s.calls = [] ∧ s.in_process_tx = false ∨ ∃ c, s.calls = [c] ∧ s.in_process_tx = true
  held : ∀ c ∈ s.calls, ∀ ti ∈ c.item?, T.Holds s.tx ti
  due : ∀ ti now, .dropping ti now ∈ s.calls → ti.2.Due now
  handed : ∀ e ∈ s.handed, ∃ item, s.pushed[e.1]? = some item ∧ e.2 = toFrame is_fd item
  expired : ∀ e ∈ s.expired, ∃ item, s.pushed[e.1]? = some item ∧ item.Due e.2

variable {T is_fd} {s t : Transmitter Q}

/-- At first nothing is pushed. -/
theorem sound_init : Sound T is_fd (Transmitter.init T) where
  accounts := Accounts.init
  guard := .inl ⟨rfl, rfl⟩
  held := by simp [Transmitter.init]
  due := by simp [Transmitter.init]
  handed := by simp [Transmitter.init]
  expired := by simp [Transmitter.init]

/-- A call past the guard is the only one. -/
theorem Sound.only (h : Sound T is_fd s) {k : ℕ} {c : Call} (hk : s.calls[k]? = some c) :
    k = 0 ∧ s.calls = [c] ∧ s.in_process_tx = true := by
  rcases h.guard with ⟨hnone, -⟩ | ⟨only, honly, hflag⟩
  · rw [hnone] at hk
    cases hk
  · rw [honly] at hk
    obtain ⟨rfl, rfl⟩ : k = 0 ∧ only = c := by
      cases k with
      | zero => exact ⟨rfl, Option.some.inj hk⟩
      | succ k => cases hk
    exact ⟨rfl, honly, hflag⟩

/-- A frame pushed stays where it is in the order of the pushes. -/
theorem getElem?_pushed {pushed : List CanardTxQueueItem} {n : ℕ} {item : CanardTxQueueItem}
    (h : pushed[n]? = some item) (other : CanardTxQueueItem) :
    (pushed ++ [other])[n]? = some item := by
  rw [List.getElem?_append_left (List.getElem?_eq_some_iff.mp h).1, h]

/-- A frame that is pushed is in the queue and not gone. -/
theorem Sound.push (h : Sound T is_fd s) (item : CanardTxQueueItem) :
    Sound T is_fd { s with
      tx := T.canardTxPush s.tx (s.pushed.length, item), pushed := s.pushed ++ [item] } where
  accounts := h.accounts.push item
  guard := h.guard
  held c hc ti hti := (T.holds_push _ _ _).mpr (.inl (h.held c hc ti hti))
  due := h.due
  handed e he := by
    obtain ⟨old, hold, hframe⟩ := h.handed e he
    exact ⟨old, getElem?_pushed hold item, hframe⟩
  expired e he := by
    obtain ⟨old, hold, hdue⟩ := h.expired e he
    exact ⟨old, getElem?_pushed hold item, hdue⟩

/-- A call goes on, with a pointer to an item of the queue if it has one. -/
theorem Sound.goOn (h : Sound T is_fd s) {k : ℕ} {c next : Call} (hk : s.calls[k]? = some c)
    (hheld : ∀ ti ∈ next.item?, T.Holds s.tx ti)
    (hdue : ∀ ti now, next = .dropping ti now → ti.2.Due now) :
    Sound T is_fd { s with calls := s.calls.set k next } := by
  obtain ⟨rfl, honly, hflag⟩ := h.only hk
  have hnext : s.calls.set 0 next = [next] := by rw [honly, List.set_cons_zero]
  rw [hnext]
  refine ⟨h.accounts, .inr ⟨next, rfl, hflag⟩, ?_, ?_, h.handed, h.expired⟩
  · intro c hc
    rw [List.mem_singleton.mp hc]
    exact hheld
  · intro ti now hdropping
    exact hdue ti now (List.mem_singleton.mp hdropping).symm

/-- A call ends, and no other is past the guard. -/
theorem Sound.return (h : Sound T is_fd s) {k : ℕ} {c : Call} (hk : s.calls[k]? = some c) :
    Sound T is_fd (s.return k) := by
  obtain ⟨rfl, honly, -⟩ := h.only hk
  have hnone : (s.return 0).calls = [] := by rw [Transmitter.return, honly, List.eraseIdx_zero,
    List.tail_cons]
  refine ⟨h.accounts, .inl ⟨hnone, rfl⟩, ?_, ?_, h.handed, h.expired⟩
  · rw [hnone]
    simp
  · rw [hnone]
    simp

/-- The item that a call finds is one of the queue. -/
theorem Sound.peek (h : Sound T is_fd s) {k : ℕ} (hk : s.calls[k]? = some .loop) (now : ℕ) :
    Sound T is_fd (s.peek T k now) := by
  rw [Transmitter.peek]
  cases hpeek : T.canardTxPeek s.tx with
  | none => exact h.return hk
  | some ti =>
    have hheld := T.holds_peek s.tx ti hpeek
    by_cases hdue : ti.2.Due now
    · simp only [if_pos hdue]
      refine h.goOn hk ?_ ?_
      · rintro _ ⟨⟩
        exact hheld
      · rintro _ _ ⟨⟩
        exact hdue
    · simp only [if_neg hdue]
      refine h.goOn hk ?_ ?_
      · rintro _ ⟨⟩
        exact hheld
      · rintro _ _ ⟨⟩

/-- A call pops its item once it is handed over or dropped, and holds no item after that. -/
theorem Sound.pop (h : Sound T is_fd s) {k : ℕ} {c : Call} {ti : ItemPtr}
    (hk : s.calls[k]? = some c) (hc : c.item? = some ti) (handed : List (ℕ × QCanBusFrame))
    (expired : List (ℕ × ℕ))
    (hgone : (handed.map Prod.fst ++ expired.map Prod.fst).Perm (ti.1 :: s.gone))
    (hhanded : ∀ e ∈ handed, ∃ item, s.pushed[e.1]? = some item ∧ e.2 = toFrame is_fd item)
    (hexpired : ∀ e ∈ expired, ∃ item, s.pushed[e.1]? = some item ∧ item.Due e.2) :
    Sound T is_fd { s.pop T k ti with handed := handed, expired := expired } := by
  obtain ⟨rfl, honly, hflag⟩ := h.only hk
  have hheld : T.Holds s.tx ti := h.held c (by simp [honly]) ti hc
  have hloop : (s.pop T 0 ti).calls = [.loop] := by rw [Transmitter.pop, honly, List.set_cons_zero]
  refine ⟨h.accounts.pop hheld hgone, .inr ⟨.loop, hloop, hflag⟩, ?_, ?_, hhanded, hexpired⟩
  · intro c hc
    obtain rfl : c = .loop := List.mem_singleton.mp (hloop ▸ hc)
    rintro _ ⟨⟩
  · intro ti now hdropping
    cases List.mem_singleton.mp (hloop ▸ hdropping)

/-- A call past the guard begins, and is the only one. -/
theorem Sound.processTx (h : Sound T is_fd s) (hflag : ¬ s.in_process_tx = true) (alive : Bool) :
    Sound T is_fd { s with
      in_process_tx := true, calls := s.calls ++ [if alive then .loop else .reporting] } := by
  rcases h.guard with ⟨hnone, -⟩ | ⟨c, -, htrue⟩
  · refine ⟨h.accounts, .inr ⟨_, by rw [hnone, List.nil_append], rfl⟩, ?_, ?_, h.handed, h.expired⟩
    · cases alive <;> simp [hnone, Call.item?]
    · cases alive <;> simp [hnone]
  · exact absurd htrue hflag

/-- The item of a call is one that was pushed. -/
theorem Sound.pushed (h : Sound T is_fd s) {c : Call} (hc : c ∈ s.calls) {ti : ItemPtr}
    (hti : c.item? = some ti) : s.pushed[ti.1]? = some ti.2 :=
  ((h.accounts.holds_iff ti).mp (h.held c hc ti hti)).1

/-- An expired item is popped. -/
theorem Sound.warned (h : Sound T is_fd s) {k now : ℕ} {ti : ItemPtr}
    (hk : s.calls[k]? = some (.dropping ti now)) :
    Sound T is_fd { s.pop T k ti with expired := s.expired ++ [(ti.1, now)] } := by
  have hmem := List.mem_of_getElem? hk
  refine h.pop hk rfl s.handed _ ?_ h.handed ?_
  · rw [List.map_append, ← List.append_assoc]
    exact List.perm_append_singleton ti.1 s.gone
  · intro e he
    rcases List.mem_append.mp he with hold | hnew
    · exact h.expired e hold
    · rw [List.mem_singleton.mp hnew]
      exact ⟨ti.2, h.pushed hmem rfl, h.due ti now hmem⟩

/-- An item that the device took is popped. -/
theorem Sound.written (h : Sound T is_fd s) {k : ℕ} {ti : ItemPtr}
    (hk : s.calls[k]? = some (.writing ti)) :
    Sound T is_fd { s.pop T k ti with handed := s.handed ++ [(ti.1, toFrame is_fd ti.2)] } := by
  have hmem := List.mem_of_getElem? hk
  refine h.pop hk rfl _ s.expired ?_ ?_ h.expired
  · rw [List.map_append, List.append_assoc]
    exact List.perm_middle
  · intro e he
    rcases List.mem_append.mp he with hold | hnew
    · exact h.handed e hold
    · rw [List.mem_singleton.mp hnew]
      exact ⟨ti.2, h.pushed hmem rfl, rfl⟩

/-- A step of the transmit side. -/
theorem Sound.step (h : Sound T is_fd s) {action : Action}
    (hstep : s.step T is_fd action = some t) : Sound T is_fd t := by
  cases action with
  | push item =>
    cases hstep
    exact h.push item
  | processTx alive =>
    simp only [Transmitter.step] at hstep
    split at hstep
    · cases hstep
      exact h
    · rename_i hflag
      cases hstep
      exact h.processTx hflag alive
  | peek k now =>
    obtain ⟨hk, rfl⟩ := of_guarded hstep
    exact h.peek hk now
  | warned k =>
    simp only [Transmitter.step] at hstep
    split at hstep
    · rename_i hk
      cases hstep
      exact h.warned hk
    · cases hstep
  | written k ok =>
    simp only [Transmitter.step] at hstep
    split at hstep
    · rename_i hk
      split at hstep
      · cases hstep
        exact h.written hk
      · cases hstep
        refine h.goOn hk ?_ ?_
        · rintro _ ⟨⟩
        · rintro _ _ ⟨⟩
    · cases hstep
  | reported k =>
    obtain ⟨hk, rfl⟩ := of_guarded hstep
    exact h.return hk
  | threw k =>
    simp only [Transmitter.step] at hstep
    split at hstep
    · cases hstep
    · cases hstep
    · rename_i hk
      cases hstep
      exact h.return hk

/-- A run of the transmit side. -/
theorem sound_of_run {actions : List Action}
    (hrun : run (Transmitter.step T is_fd) (Transmitter.init T) actions = some t) :
    Sound T is_fd t :=
  run_invariant_of_step (fun h hstep => h.step hstep) sound_init hrun

/-! ## Every frame is handed over at most once, and none is lost -/

/-- A frame is handed over at most once and not after it expired, the queue holds exactly the
frames that were neither handed over nor expired, and a frame that expired was due. One call at most
is past the guard, and the item that it writes or drops is in the queue. -/
structure Transmitter.Exact (T : CanardTxQueue Q) (is_fd : Bool) (s : Transmitter Q) : Prop where
  handed_once : (s.handed.map Prod.fst).Nodup
  handed_frame : ∀ n frame, (n, frame) ∈ s.handed →
    ∃ item, s.pushed[n]? = some item ∧ frame = toFrame is_fd item
  expired_due : ∀ n now, (n, now) ∈ s.expired →
    ∃ item, s.pushed[n]? = some item ∧ item.Due now ∧ n ∉ s.handed.map Prod.fst
  queued_iff : ∀ n item, T.Holds s.tx (n, item) ↔
    s.pushed[n]? = some item ∧ n ∉ s.handed.map Prod.fst ∧ n ∉ s.expired.map Prod.fst
  one_call : s.calls.length ≤ 1
  in_queue : ∀ c ∈ s.calls, ∀ ti ∈ c.item?, T.Holds s.tx ti

/-- The invariant gives the guarantee. -/
theorem Sound.exact (h : Sound T is_fd s) : s.Exact T is_fd where
  handed_once := (List.nodup_append.mp h.accounts.once).1
  handed_frame n frame hmem := h.handed (n, frame) hmem
  expired_due n now hmem := by
    obtain ⟨item, hpushed, hdue⟩ := h.expired (n, now) hmem
    refine ⟨item, hpushed, hdue, fun hhanded => ?_⟩
    exact (List.nodup_append.mp h.accounts.once).2.2 n hhanded n (List.mem_map_of_mem hmem) rfl
  queued_iff n item := by
    rw [h.accounts.holds_iff, Transmitter.gone, List.mem_append, not_or]
  one_call := by
    rcases h.guard with ⟨hnone, -⟩ | ⟨c, honly, -⟩
    · simp [hnone]
    · simp [honly]
  in_queue := h.held

/-- A call of `processTx` while another one is past the guard does nothing. -/
theorem Sound.reentered (h : Sound T is_fd s) (hcalls : s.calls ≠ []) (alive : Bool) :
    s.step T is_fd (.processTx alive) = some s := by
  rcases h.guard with ⟨hnone, -⟩ | ⟨c, -, hflag⟩
  · exact absurd hnone hcalls
  · exact if_pos hflag

/-- However the calls of a run are nested: every frame is handed over at most once, the queue
holds exactly the frames that were neither handed over nor expired, a call under another one does
nothing, and a failed write leaves its frame in the queue. -/
theorem processTx_exact (T : CanardTxQueue Q) (is_fd : Bool) (actions : List Action)
    (t : Transmitter Q)
    (hrun : run (Transmitter.step T is_fd) (Transmitter.init T) actions = some t) :
    t.Exact T is_fd ∧
    (t.calls ≠ [] → ∀ alive, t.step T is_fd (.processTx alive) = some t) ∧
    ∀ k ti, t.calls[k]? = some (.writing ti) →
      ∃ u, t.step T is_fd (.written k false) = some u ∧ u.tx = t.tx ∧ u.handed = t.handed ∧
        u.expired = t.expired ∧ T.Holds u.tx ti := by
  have hsound := sound_of_run hrun
  refine ⟨hsound.exact, hsound.reentered, fun k ti hk => ?_⟩
  refine ⟨{ t with calls := t.calls.set k .reporting }, ?_, rfl, rfl, rfl, ?_⟩
  · simp [Transmitter.step, hk]
  · exact hsound.held _ (List.mem_of_getElem? hk) ti rfl

end Machine

/-- The frame with the larger identifier is being written when the other one is published. The
write fails, the next call writes the one that is first by then, and a third one expires. -/
def nestedRun : List Action :=
  [.push ⟨0, 20, [1]⟩, .processTx true, .peek 0 1, .push ⟨0, 10, [2]⟩, .processTx true,
    .written 0 false, .processTx true, .reported 0, .push ⟨5, 30, [3]⟩, .processTx true, .peek 0 2,
    .written 0 true, .peek 0 3, .written 0 true, .peek 0 9, .warned 0, .peek 0 9]

/-- A write that fails inside of another and a frame that expires: each frame is accounted for once.
-/
theorem processTx_exact_nested :
    ∃ t, run (Transmitter.step orderedQueue true) (Transmitter.init orderedQueue) nestedRun =
        some t ∧
      t.handed.map Prod.fst = [1, 0] ∧ t.expired = [(2, 9)] ∧ t.tx = [] ∧
      t.Exact orderedQueue true :=
  ⟨_, rfl, by decide, by decide, by decide, (processTx_exact orderedQueue true nestedRun _ rfl).1⟩

end Radapter.Cyphal.Transmit
