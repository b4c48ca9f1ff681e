import Mathlib.Data.List.Nodup
import Radapter.Modbus.Device

/-!
# The steps of a device

What each operation of `MasterDevice` can do, one case for each of its branches, and what it
leaves alone.
-/

namespace Radapter.Modbus

variable {γ : Type*}

/-- The victim of an overflow is what the removal takes away. -/
theorem OverflowBehaviour.count_pop {α : Type*} [DecidableEq α] {mode : OverflowBehaviour}
    {q : List α} {v : α} (h : mode.victim q = some v) (x : α) :
    (mode.pop q).count x + [v].count x = q.count x := by
  cases mode with
  | pop_first =>
    obtain ⟨rest, rfl⟩ := List.head?_eq_some_iff.mp h
    simp [pop, List.count_cons]
  | pop_last =>
    obtain ⟨rest, rfl⟩ := List.getLast?_eq_some_iff.mp h
    rw [pop, List.dropLast_concat, List.count_append]

/-- The victim stands in the queue. -/
theorem OverflowBehaviour.victim_mem {α : Type*} {mode : OverflowBehaviour} {q : List α} {v : α}
    (h : mode.victim q = some v) : v ∈ q := by
  cases mode with
  | pop_first => exact List.mem_of_head? h
  | pop_last => exact List.mem_of_getLast? h

/-- A queue that is not empty has a victim. -/
theorem OverflowBehaviour.victim_isSome {α : Type*} (mode : OverflowBehaviour) {q : List α}
    (h : q ≠ []) : ∃ v, mode.victim q = some v := by
  cases mode with
  | pop_first => exact ⟨_, List.head?_eq_some_head h⟩
  | pop_last => exact ⟨_, List.getLast?_eq_some_getLast h⟩

/-- What is left of a queue stays in its order. -/
theorem OverflowBehaviour.pop_sublist {α : Type*} (mode : OverflowBehaviour) (q : List α) :
    (mode.pop q).Sublist q := by
  cases mode with
  | pop_first => exact List.tail_sublist q
  | pop_last => exact List.dropLast_sublist q

namespace MasterDevice

/-- The request a call of `Execute` would issue. -/
def nextIssued (d : MasterDevice γ) (op : Op) (req : Request γ) : Issued γ :=
  { id := d.issued.length, op := op, req := req }

/-- The three things a call of `Execute` can do. -/
theorem Execute_cases (config : Device) (d : MasterDevice γ) (op : Op) (req : Request γ) :
    (¬ d.Overflows config op ∧ d.Execute config op req =
        ({ d with issued := d.issued ++ [d.nextIssued op req] } : MasterDevice γ).setQueue op
          (d.queue op ++ [d.nextIssued op req])) ∨
      (d.Overflows config op ∧ ∃ v, (config.onOver op).victim (d.queue op) = some v ∧
        d.Execute config op req =
          { d with
            issued := d.issued ++ [d.nextIssued op req]
            called := d.called ++ [{ request := v, failed := true }]
            stack := { pending := d.nextIssued op req, victim := v } :: d.stack }) ∨
      (d.Overflows config op ∧ d.queue op = [] ∧ d.Execute config op req =
        { d with issued := d.issued ++ [d.nextIssued op req], touchedEmpty := true }) := by
  by_cases h : d.Overflows config op
  · cases hv : (config.onOver op).victim (d.queue op) with
    | none =>
      refine .inr (.inr ⟨h, ?_, ?_⟩)
      · by_contra hne
        obtain ⟨v, hsome⟩ := (config.onOver op).victim_isSome hne
        rw [hv] at hsome
        cases hsome
      · apply (if_pos h).trans
        simp only [hv]
        rfl
    | some v =>
      refine .inr (.inl ⟨h, v, rfl, (if_pos h).trans ?_⟩)
      simp only [hv]
      rfl
  · exact .inl ⟨h, if_neg h⟩

/-- `Execute` issues its request and destroys no context. -/
theorem Execute_frame (config : Device) (d : MasterDevice γ) (op : Op) (req : Request γ) :
    (d.Execute config op req).issued = d.issued ++ [d.nextIssued op req] ∧
      (d.Execute config op req).destroyed = d.destroyed := by
  rcases d.Execute_cases config op req with ⟨_, heq⟩ | ⟨_, v, _, heq⟩ | ⟨_, _, heq⟩ <;>
    rw [heq] <;> exact ⟨rfl, rfl⟩

/-- A finished reply touches neither the queues nor the waiting calls. -/
theorem finished_frame {d t : MasterDevice γ} {failed : Bool} (h : d.finished failed = some t) :
    t.queue = d.queue ∧ t.stack = d.stack ∧ t.issued = d.issued ∧ t.sent = d.sent ∧
      t.destroyed = d.destroyed := by
  unfold finished at h
  split at h
  · cases h
  · split at h <;> cases h <;> exact ⟨rfl, rfl, rfl, rfl, rfl⟩

/-- The innermost waiting call goes on, or its queue has run empty. -/
theorem callbackReturns_cases {config : Device} {d t : MasterDevice γ}
    (h : d.callbackReturns config = some t) : ∃ f rest, d.stack = f :: rest ∧
      ((d.queue f.pending.op = [] ∧ t = { d with touchedEmpty := true }) ∨
        (d.queue f.pending.op ≠ [] ∧
          t = ({ d with stack := rest } : MasterDevice γ).setQueue f.pending.op
            ((config.onOver f.pending.op).pop (d.queue f.pending.op) ++ [f.pending]))) := by
  unfold callbackReturns at h
  cases hstack : d.stack with
  | nil => simp [hstack] at h
  | cons f rest =>
    simp only [hstack] at h
    split at h
    · next hempty =>
      cases h
      exact ⟨f, rest, rfl, .inl ⟨List.isEmpty_iff.mp hempty, rfl⟩⟩
    · next hne =>
      cases h
      exact ⟨f, rest, rfl, .inr ⟨fun hempty => hne (List.isEmpty_iff.mpr hempty), rfl⟩⟩

/-- A tick does nothing, or takes the front off a queue; reads wait for the writes. -/
theorem nextReq_cases (d : MasterDevice γ) (sent : Bool) : d.nextReq sent = d ∨
    ∃ op x rest, d.flight = none ∧ d.queue op = x :: rest ∧
      (op = .op_read → d.queue .op_write = []) ∧
      d.nextReq sent = nextReq.send sent (d.setQueue op rest) x := by
  unfold nextReq
  cases hflight : d.flight with
  | some x => exact .inl rfl
  | none =>
    simp only [Option.isSome_none, Bool.false_eq_true, if_false]
    cases hw : d.queue .op_write with
    | cons x rest => exact .inr ⟨.op_write, x, rest, trivial, hw, by simp, rfl⟩
    | nil =>
      cases hr : d.queue .op_read with
      | cons x rest => exact .inr ⟨.op_read, x, rest, trivial, hr, fun _ => rfl, rfl⟩
      | nil => exact .inl rfl

/-- Requests are numbered in the order of the calls of `Execute`. -/
def Numbered (d : MasterDevice γ) : Prop := ∀ x ∈ d.issued, x.id < d.issued.length

/-- A new request is not among the requests seen so far. -/
theorem Numbered.fresh {d : MasterDevice γ} (h : d.Numbered) (op : Op) (req : Request γ) :
    d.nextIssued op req ∉ d.issued :=
  fun hmem => Nat.lt_irrefl _ (h _ hmem)

/-- Requests are numbered as they are issued. -/
theorem Numbered.concat {d : MasterDevice γ} (h : d.Numbered) (op : Op) (req : Request γ) :
    ∀ x ∈ d.issued ++ [d.nextIssued op req],
      x.id < (d.issued ++ [d.nextIssued op req]).length := by
  intro x hx
  rw [List.length_append, List.length_singleton]
  rcases List.mem_append.mp hx with hx | hx
  · exact Nat.lt_succ_of_lt (h x hx)
  · rw [List.mem_singleton.mp hx]
    exact Nat.lt_succ_self _

/-- The rest of a call of `Execute` issues nothing and calls nothing back. -/
theorem callbackReturns_frame {config : Device} {d t : MasterDevice γ}
    (h : d.callbackReturns config = some t) :
    t.issued = d.issued ∧ t.called = d.called ∧ t.destroyed = d.destroyed := by
  obtain ⟨f, rest, _, ⟨_, rfl⟩ | ⟨_, rfl⟩⟩ := callbackReturns_cases h <;> exact ⟨rfl, rfl, rfl⟩

/-- A tick issues nothing. -/
theorem nextReq_frame (d : MasterDevice γ) (sent : Bool) :
    (d.nextReq sent).issued = d.issued ∧ (d.nextReq sent).destroyed = d.destroyed ∧
      (d.nextReq sent).stack = d.stack := by
  rcases d.nextReq_cases sent with heq | ⟨op, x, rest, _, _, _, heq⟩
  · rw [heq]
    exact ⟨rfl, rfl, rfl⟩
  · rw [heq]
    cases sent <;> exact ⟨rfl, rfl, rfl⟩

end MasterDevice

end Radapter.Modbus
