import Radapter.Modbus.DeviceSteps

/-!
# No request of a device is lost

The invariant behind `MasterDevice.Accounted`: every request is counted once over the queues,
the flight, the arguments of waiting calls, the calls made and the requests dropped with their
context, except that the victim of a running overflow callback is counted twice.
-/

namespace Radapter.Modbus

namespace MasterDevice

variable {γ : Type*} [DecidableEq γ]

/-- How often a request stands in the two queues. -/
def waiting (d : MasterDevice γ) (x : Issued γ) : ℕ :=
  (d.queue .op_write).count x + (d.queue .op_read).count x

/-- A queue that is set changes what waits by the difference of the two queues. -/
theorem waiting_setQueue (d : MasterDevice γ) (op : Op) (q : List (Issued γ)) (x : Issued γ) :
    (d.setQueue op q).waiting x + (d.queue op).count x = d.waiting x + q.count x := by
  cases op <;> simp [waiting, setQueue] <;> omega

/-- One more call. -/
theorem calls_concat (d : MasterDevice γ) (x y : Issued γ) (failed : Bool) :
    calls { d with called := d.called ++ [{ request := x, failed := failed }] } y =
      d.calls y + [x].count y := by
  rw [calls, calls, List.map_append, List.count_append]
  rfl

/-- The run invariant of a device. -/
structure Inv (config : Device) (d : MasterDevice γ) : Prop where
  sound : d.touchedEmpty = false
  numbered : d.Numbered
  nodup : d.issued.Nodup
  queued : ∀ op, ∀ x ∈ d.queue op, x.op = op
  balance : ∀ x, d.waiting x + d.flight.toList.count x +
    (d.stack.map Overflow.pending).count x + d.calls x + d.dropped.count x =
      d.issued.count x + (d.stack.map Overflow.victim).count x
  atEnd : ∀ f ∈ d.stack,
    (config.onOver f.pending.op).victim (d.queue f.pending.op) = some f.victim
  oncePerQueue : (d.stack.map (fun f => f.pending.op)).Nodup
  told : ∀ f ∈ d.stack, f.victim ∈ d.called.map Call.request
  gone : ∀ x ∈ d.dropped, x.req.ctx ∈ d.destroyed

/-- Appending a new request to its queue adds one place where it waits. -/
theorem waiting_push (d : MasterDevice γ) (op : Op) (req : Request γ) (x : Issued γ) :
    waiting (({ d with issued := d.issued ++ [d.nextIssued op req] } : MasterDevice γ).setQueue op
      (d.queue op ++ [d.nextIssued op req])) x =
        d.waiting x + [d.nextIssued op req].count x := by
  have hwait := waiting_setQueue ({ d with issued := d.issued ++ [d.nextIssued op req] } :
    MasterDevice γ) op (d.queue op ++ [d.nextIssued op req]) x
  change _ + (d.queue op).count x = d.waiting x + _ at hwait
  rw [List.count_append] at hwait
  omega

/-- The rest of a call of `Execute` exchanges the end of its queue for its own request. -/
theorem waiting_popped (config : Device) (d : MasterDevice γ) (f : Overflow γ)
    (rest : List (Overflow γ)) (x : Issued γ) :
    waiting (({ d with stack := rest } : MasterDevice γ).setQueue f.pending.op
      ((config.onOver f.pending.op).pop (d.queue f.pending.op) ++ [f.pending])) x +
        (d.queue f.pending.op).count x =
      d.waiting x + ((config.onOver f.pending.op).pop (d.queue f.pending.op)).count x +
        [f.pending].count x := by
  have hwait := waiting_setQueue ({ d with stack := rest } : MasterDevice γ) f.pending.op
    ((config.onOver f.pending.op).pop (d.queue f.pending.op) ++ [f.pending]) x
  change _ + (d.queue f.pending.op).count x = d.waiting x + _ at hwait
  rw [List.count_append] at hwait
  omega

/-- The next request differs from all that were issued. -/
private theorem Inv.nodup_concat {config : Device} {d : MasterDevice γ} (h : Inv config d)
    (op : Op) (req : Request γ) : (d.issued ++ [d.nextIssued op req]).Nodup := by
  refine List.nodup_append.mpr ⟨h.nodup, List.nodup_singleton _, ?_⟩
  rintro a ha b hb rfl
  rw [List.mem_singleton.mp hb] at ha
  exact h.numbered.fresh op req ha

/-- Appending a new request to its queue. -/
private theorem Inv.push {config : Device} {d : MasterDevice γ} (h : Inv config d) {op : Op}
    {req : Request γ} (hstack : ∀ f ∈ d.stack, f.pending.op ≠ op) :
    Inv config (({ d with issued := d.issued ++ [d.nextIssued op req] } :
      MasterDevice γ).setQueue op (d.queue op ++ [d.nextIssued op req])) := by
  constructor
  · exact h.sound
  · exact h.numbered.concat op req
  · exact h.nodup_concat op req
  · intro other x hx
    rcases mem_queue_setQueue hx with ⟨rfl, hmem⟩ | ⟨-, hmem⟩
    · rcases List.mem_append.mp hmem with hold | hnew
      · exact h.queued other x hold
      · rw [List.mem_singleton.mp hnew]
        rfl
    · exact h.queued other x hmem
  · intro x
    have hbal := h.balance x
    have hwait := d.waiting_push op req x
    change _ + d.flight.toList.count x + (d.stack.map Overflow.pending).count x + d.calls x +
      d.dropped.count x = (d.issued ++ [d.nextIssued op req]).count x + _
    rw [List.count_append]
    change _ = _ + (d.stack.map Overflow.victim).count x
    omega
  · intro f hf
    rw [queue_setQueue_ne _ (hstack f hf)]
    exact h.atEnd f hf
  · exact h.oncePerQueue
  · exact h.told
  · exact h.gone

/-- Waiting for the callback of a victim. -/
private theorem Inv.wait {config : Device} {d : MasterDevice γ} (h : Inv config d) {op : Op}
    {req : Request γ} (hstack : ∀ f ∈ d.stack, f.pending.op ≠ op) {v : Issued γ}
    (hv : (config.onOver op).victim (d.queue op) = some v) :
    Inv config
      { d with
        issued := d.issued ++ [d.nextIssued op req]
        called := d.called ++ [{ request := v, failed := true }]
        stack := { pending := d.nextIssued op req, victim := v } :: d.stack } := by
  constructor
  · exact h.sound
  · exact h.numbered.concat op req
  · exact h.nodup_concat op req
  · exact h.queued
  · intro x
    have hbal := h.balance x
    simp only [calls, List.map_append, List.map_cons, List.map_nil, List.count_append,
      List.count_cons, List.count_nil] at hbal ⊢
    change d.waiting x + _ + _ + _ + _ = _
    omega
  · intro f hf
    rcases List.mem_cons.mp hf with rfl | hf
    · exact hv
    · exact h.atEnd f hf
  · rw [List.map_cons, List.nodup_cons]
    refine ⟨?_, h.oncePerQueue⟩
    intro hmem
    obtain ⟨f, hf, hop⟩ := List.mem_map.mp hmem
    exact hstack f hf hop
  · intro f hf
    rw [List.map_append, List.mem_append]
    rcases List.mem_cons.mp hf with rfl | hf
    · exact .inr (by simp)
    · exact .inl (h.told f hf)
  · exact h.gone

/-- A safe call of `Execute` appends its request or waits for a victim's callback. -/
theorem Inv.execute {config : Device} {d : MasterDevice γ} (h : Inv config d) {op : Op}
    {req : Request γ} (hlimit : 0 < config.limit op) (hstack : ∀ f ∈ d.stack, f.pending.op ≠ op) :
    Inv config (d.Execute config op req) := by
  rcases d.Execute_cases config op req with ⟨_, heq⟩ | ⟨_, v, hv, heq⟩ | ⟨hover, hempty, _⟩
  · rw [heq]
    exact h.push hstack
  · rw [heq]
    exact h.wait hstack hv
  · rw [Overflows, hempty, List.length_nil] at hover
    omega

/-- The innermost waiting call removes its victim and appends its request. -/
theorem Inv.callbackReturns {config : Device} {d t : MasterDevice γ} (h : Inv config d)
    (ht : d.callbackReturns config = some t) : Inv config t := by
  obtain ⟨f, rest, hstack, hcases⟩ := callbackReturns_cases ht
  have hend := h.atEnd f (by simp [hstack])
  have hne : d.queue f.pending.op ≠ [] :=
    List.ne_nil_of_mem (OverflowBehaviour.victim_mem hend)
  rcases hcases with ⟨hempty, _⟩ | ⟨_, rfl⟩
  · exact absurd hempty hne
  · have honce := h.oncePerQueue
    rw [hstack, List.map_cons, List.nodup_cons] at honce
    have hother : ∀ g ∈ rest, g.pending.op ≠ f.pending.op :=
      fun g hg hop => honce.1 (List.mem_map.mpr ⟨g, hg, hop⟩)
    have hrest : ∀ g ∈ rest, g ∈ d.stack := fun g hg => by simp [hstack, hg]
    constructor
    · exact h.sound
    · exact h.numbered
    · exact h.nodup
    · intro op x hx
      rcases mem_queue_setQueue hx with ⟨rfl, hmem⟩ | ⟨-, hmem⟩
      · rcases List.mem_append.mp hmem with hold | hnew
        · exact h.queued _ x ((OverflowBehaviour.pop_sublist _ _).mem hold)
        · rw [List.mem_singleton.mp hnew]
      · exact h.queued op x hmem
    · intro x
      have hbal := h.balance x
      have hpop := OverflowBehaviour.count_pop hend x
      have hwait := waiting_popped config d f rest x
      change _ + d.flight.toList.count x + (rest.map Overflow.pending).count x + d.calls x +
        d.dropped.count x = d.issued.count x + (rest.map Overflow.victim).count x
      simp only [hstack, List.map_cons, List.count_cons, List.count_nil] at hbal hpop hwait
      omega
    · intro g hg
      rw [queue_setQueue_ne _ (hother g hg)]
      exact h.atEnd g (hrest g hg)
    · exact honce.2
    · exact fun g hg => h.told g (hrest g hg)
    · exact h.gone

/-- The invariant while no call of `Execute` waits. -/
private theorem Inv.of_idle {config : Device} {d : MasterDevice γ} (hstack : d.stack = [])
    (hsound : d.touchedEmpty = false) (hnumbered : d.Numbered)
    (hnodup : d.issued.Nodup) (hqueued : ∀ op, ∀ x ∈ d.queue op, x.op = op)
    (hbalance : ∀ x, d.waiting x + d.flight.toList.count x + d.calls x + d.dropped.count x =
      d.issued.count x) (hgone : ∀ x ∈ d.dropped, x.req.ctx ∈ d.destroyed) : Inv config d where
  sound := hsound
  numbered := hnumbered
  nodup := hnodup
  queued := hqueued
  balance := by simpa [hstack] using hbalance
  atEnd := by simp [hstack]
  oncePerQueue := by simp [hstack]
  told := by simp [hstack]
  gone := hgone

/-- When no call of `Execute` waits, what was issued waits, is in flight, was called back or was
dropped. -/
private theorem Inv.balance_idle {config : Device} {d : MasterDevice γ} (h : Inv config d)
    (hstack : d.stack = []) (x : Issued γ) :
    d.waiting x + d.flight.toList.count x + d.calls x + d.dropped.count x = d.issued.count x := by
  simpa [hstack] using h.balance x

/-- The front of a queue is taken off: the request is in flight, or called back with an error. -/
private theorem Inv.send {config : Device} {d : MasterDevice γ} (h : Inv config d)
    (hstack : d.stack = []) (hflight : d.flight = none) {op : Op} {x : Issued γ}
    {rest : List (Issued γ)} (hq : d.queue op = x :: rest) (sent : Bool) :
    Inv config (nextReq.send sent (d.setQueue op rest) x) := by
  have hqueued : ∀ other, ∀ y ∈ (d.setQueue op rest).queue other, y.op = other := by
    intro other y hy
    rcases mem_queue_setQueue hy with ⟨rfl, hmem⟩ | ⟨-, hmem⟩
    · exact h.queued other y (by simp [hq, hmem])
    · exact h.queued other y hmem
  have hmoved : ∀ y, (d.setQueue op rest).waiting y + [x].count y + d.calls y +
      d.dropped.count y = d.issued.count y := by
    intro y
    have hbal := h.balance_idle hstack y
    have hwait := waiting_setQueue d op rest y
    rw [hflight, Option.toList_none, List.count_nil] at hbal
    rw [hq, List.count_cons] at hwait
    rw [List.count_cons, List.count_nil]
    omega
  cases sent with
  | true => exact .of_idle hstack h.sound h.numbered h.nodup hqueued hmoved h.gone
  | false =>
    refine .of_idle hstack h.sound h.numbered h.nodup hqueued (fun y => ?_) h.gone
    have hm := hmoved y
    change (d.setQueue op rest).waiting y + d.flight.toList.count y +
      calls { d with called := d.called ++ [{ request := x, failed := true }] } y +
      d.dropped.count y = d.issued.count y
    rw [calls_concat, hflight, Option.toList_none, List.count_nil]
    omega

/-- A tick of the timer. -/
theorem Inv.nextReq {config : Device} {d : MasterDevice γ} (h : Inv config d)
    (hstack : d.stack = []) (sent : Bool) : Inv config (d.nextReq sent) := by
  rcases d.nextReq_cases sent with heq | ⟨op, x, rest, hflight, hq, _, heq⟩
  · rw [heq]
    exact h
  · rw [heq]
    exact h.send hstack hflight hq sent

/-- A reply has finished. -/
theorem Inv.finished {config : Device} {d t : MasterDevice γ} (h : Inv config d)
    (hstack : d.stack = []) {failed : Bool} (ht : d.finished failed = some t) : Inv config t := by
  unfold MasterDevice.finished at ht
  cases hflight : d.flight with
  | none => simp [hflight] at ht
  | some x =>
    have hbal : ∀ y, d.waiting y + [x].count y + d.calls y + d.dropped.count y =
        d.issued.count y := by
      intro y
      have hidle := h.balance_idle hstack y
      rwa [hflight] at hidle
    simp only [hflight] at ht
    split at ht
    · next hgone =>
      cases ht
      refine .of_idle hstack h.sound h.numbered h.nodup h.queued (fun y => ?_) ?_
      · have hy := hbal y
        change d.waiting y + 0 + d.calls y + (d.dropped ++ [x]).count y = d.issued.count y
        rw [List.count_append]
        omega
      · intro y hy
        rcases List.mem_append.mp hy with hy | hy
        · exact h.gone y hy
        · rw [List.mem_singleton.mp hy]
          exact hgone
    · cases ht
      refine .of_idle hstack h.sound h.numbered h.nodup h.queued (fun y => ?_) h.gone
      have hy := hbal y
      change d.waiting y + 0 + calls { d with called := d.called ++
        [{ request := x, failed := failed }] } y + d.dropped.count y = d.issued.count y
      rw [calls_concat]
      omega

/-- Every safe step keeps the invariant. -/
theorem Inv.step {config : Device} {d t : MasterDevice γ} {a : Action γ} (h : Inv config d)
    (hsafe : d.Safe config a) (ht : d.step config a = some t) : Inv config t := by
  unfold MasterDevice.step at ht
  rw [if_neg (by simp [h.sound])] at ht
  cases a with
  | execute op req =>
    cases ht
    exact h.execute hsafe.1 hsafe.2
  | callbackReturns => exact h.callbackReturns ht
  | nextReq sent =>
    dsimp only at ht
    split at ht
    · next hstack =>
      cases ht
      exact h.nextReq (List.isEmpty_iff.mp hstack) sent
    · cases ht
  | finished failed =>
    dsimp only at ht
    split at ht
    · next hstack => exact h.finished (List.isEmpty_iff.mp hstack) ht
    · cases ht
  | destroy ctx =>
    cases ht
    exact ⟨h.sound, h.numbered, h.nodup, h.queued, h.balance, h.atEnd, h.oncePerQueue, h.told,
      fun x hx => List.mem_cons_of_mem _ (h.gone x hx)⟩

/-- A request waits in its own queue only. -/
private theorem Inv.waiting_eq {config : Device} {d : MasterDevice γ} (h : Inv config d)
    (x : Issued γ) : d.waiting x = (d.queue x.op).count x := by
  have hzero : ∀ op, op ≠ x.op → (d.queue op).count x = 0 :=
    fun op hop => List.count_eq_zero.mpr fun hmem => hop (h.queued op x hmem).symm
  cases hx : x.op with
  | op_read =>
    rw [waiting, hzero .op_write (by rw [hx]; decide), Nat.zero_add]
  | op_write =>
    rw [waiting, hzero .op_read (by rw [hx]; decide), Nat.add_zero]

/-- At most one waiting call has a given victim. -/
private theorem Inv.victim_count_le {config : Device} {d : MasterDevice γ} (h : Inv config d)
    (x : Issued γ) : (d.stack.map Overflow.victim).count x ≤ 1 := by
  have honce := List.nodup_iff_count_le_one.mp h.oncePerQueue x.op
  rw [List.count_eq_countP, List.countP_map] at honce ⊢
  refine Nat.le_trans (List.countP_mono_left ?_) honce
  intro f hf hx
  have hvictim : f.victim = x := by simpa using hx
  have hop := h.queued _ _ (OverflowBehaviour.victim_mem (h.atEnd f hf))
  rw [hvictim] at hop
  simp [hop]

/-- The invariant accounts for every request whose context is alive. -/
theorem Inv.accounted {config : Device} {d : MasterDevice γ} (h : Inv config d) :
    d.Accounted := by
  refine ⟨h.sound, fun x hx halive => ?_⟩
  have hbal := h.balance x
  have hissued := List.count_eq_one_of_mem h.nodup hx
  have hdropped : d.dropped.count x = 0 :=
    List.count_eq_zero.mpr fun hmem => halive (h.gone x hmem)
  rw [h.waiting_eq x, hissued, hdropped] at hbal
  by_cases hvictim : x ∈ d.stack.map Overflow.victim
  · obtain ⟨f, hf, rfl⟩ := List.mem_map.mp hvictim
    have hmem := OverflowBehaviour.victim_mem (h.atEnd f hf)
    rw [← h.queued _ _ hmem] at hmem
    have hqueue := List.count_pos_iff.mpr hmem
    have hcalls : 0 < d.calls f.victim := List.count_pos_iff.mpr (h.told f hf)
    have hone := h.victim_count_le f.victim
    refine .inr (.inr ⟨?_, ?_, ?_, hvictim⟩)
    · omega
    · omega
    · unfold places
      omega
  · have hzero := List.count_eq_zero.mpr hvictim
    rcases Nat.eq_zero_or_pos (d.calls x) with hcalls | hcalls
    · refine .inl ⟨hcalls, ?_⟩
      unfold places
      omega
    · refine .inr (.inl ⟨?_, ?_⟩)
      · omega
      · unfold places
        omega

end MasterDevice

end Radapter.Modbus
