import Radapter.Modbus.DeviceRuns

/-!
# Where requests stay

What each step of a device does to the places of a request and to the calls made so far. A
request leaves its places only as the victim of an overflow, with its reply, or when the client
does not accept it.
-/

namespace Radapter.Modbus

namespace MasterDevice

variable {γ : Type*}

/-- A call of `Execute` forgets no call. -/
theorem mem_called_Execute (config : Device) (d : MasterDevice γ) (op : Op) (req : Request γ)
    {c : Call γ} (hc : c ∈ d.called) : c ∈ (d.Execute config op req).called := by
  rcases d.Execute_cases config op req with ⟨_, heq⟩ | ⟨_, v, _, heq⟩ | ⟨_, _, heq⟩
  · rw [heq]
    exact hc
  · rw [heq]
    exact List.mem_append_left _ hc
  · rw [heq]
    exact hc

/-- A tick forgets no call. -/
theorem mem_called_nextReq (d : MasterDevice γ) (sent : Bool) {c : Call γ} (hc : c ∈ d.called) :
    c ∈ (d.nextReq sent).called := by
  rcases d.nextReq_cases sent with heq | ⟨op, x, rest, _, _, _, heq⟩
  · rw [heq]
    exact hc
  · rw [heq]
    cases sent with
    | true => exact hc
    | false => exact List.mem_append_left _ hc

/-- With its context alive, a finished reply is one more call. -/
theorem called_finished {d t : MasterDevice γ} {failed : Bool} {x : Issued γ}
    (halive : d.destroyed = []) (hflight : d.flight = some x) (ht : d.finished failed = some t) :
    t.called = d.called ++ [{ request := x, failed := failed }] := by
  unfold finished at ht
  simp only [hflight, halive, List.not_mem_nil, if_false, Option.some_inj] at ht
  rw [← ht]

variable [DecidableEq γ]

/-- A call of `Execute` gives up no place of a request. -/
theorem places_le_Execute (config : Device) (d : MasterDevice γ) (op : Op) (req : Request γ)
    (x : Issued γ) : d.places x ≤ (d.Execute config op req).places x := by
  unfold places
  rcases d.Execute_cases config op req with ⟨_, heq⟩ | ⟨_, v, _, heq⟩ | ⟨_, _, heq⟩
  · rw [heq]
    by_cases hop : x.op = op
    · simp only [setQueue, hop, Function.update_self, List.count_append]
      omega
    · simp only [setQueue, Function.update_of_ne hop, Nat.le_refl]
  · rw [heq]
    simp only [List.map_cons, List.count_cons]
    omega
  · exact Nat.le_of_eq (by rw [heq])

/-- The request of a call of `Execute` on a queue with a positive limit has a place. -/
theorem places_Execute_pos {config : Device} {op : Op} (hlimit : 0 < config.limit op)
    (d : MasterDevice γ) (req : Request γ) :
    0 < (d.Execute config op req).places (d.nextIssued op req) := by
  unfold places
  rcases d.Execute_cases config op req with ⟨_, heq⟩ | ⟨_, v, _, heq⟩ | ⟨hover, hempty, _⟩
  · rw [heq]
    change 0 < (Function.update d.queue op (d.queue op ++ [d.nextIssued op req]) op).count _ + _ + _
    rw [Function.update_self, List.count_append, List.count_singleton_self]
    omega
  · rw [heq]
    simp only [List.map_cons, List.count_cons_self]
    omega
  · rw [Overflows, hempty, List.length_nil] at hover
    omega

/-- The rest of a call of `Execute` takes the place of its victim alone. -/
theorem Inv.places_le_callbackReturns {config : Device} {d t : MasterDevice γ}
    (h : Inv config d) (ht : d.callbackReturns config = some t) {x : Issued γ}
    (hx : ∀ f ∈ d.stack, x ≠ f.victim) : d.places x ≤ t.places x := by
  obtain ⟨f, rest, hstack, hcases⟩ := callbackReturns_cases ht
  have hf : f ∈ d.stack := by simp [hstack]
  rcases hcases with ⟨_, rfl⟩ | ⟨_, rfl⟩
  · exact Nat.le_refl _
  · have hpop := OverflowBehaviour.count_pop (h.atEnd f hf) x
    have hzero : [f.victim].count x = 0 := List.count_eq_zero.mpr (by simpa using hx f hf)
    rw [hzero, Nat.add_zero] at hpop
    unfold places
    change _ ≤ _ + d.flight.toList.count x + (rest.map Overflow.pending).count x
    rw [hstack, List.map_cons, List.count_cons]
    by_cases hop : x.op = f.pending.op
    · simp only [setQueue, hop, Function.update_self, List.count_append, List.count_cons,
        List.count_nil, hpop]
      omega
    · have hne : (f.pending == x) = false := by
        simpa using fun heq : f.pending = x => hop (by rw [heq])
      simp only [setQueue, Function.update_of_ne hop, hne, Bool.false_eq_true, if_false]
      omega

/-- A finished reply takes the place of the request that was in flight. -/
theorem places_le_finished {d t : MasterDevice γ} {failed : Bool}
    (ht : d.finished failed = some t) {x : Issued γ} (hx : d.flight ≠ some x) :
    d.places x ≤ t.places x := by
  obtain ⟨hqueue, hstack, _⟩ := finished_frame ht
  unfold places
  rw [hqueue, hstack]
  have hzero : d.flight.toList.count x = 0 := by
    refine List.count_eq_zero.mpr fun hmem => hx ?_
    simpa using hmem
  omega

end MasterDevice

end Radapter.Modbus
