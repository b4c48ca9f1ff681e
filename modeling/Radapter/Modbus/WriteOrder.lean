import Radapter.Modbus.LogHandler

/-!
# Writes of a register are sent in the order of acceptance

Every request for a register carries the value that was the latest when the request was issued:
a message issues its own value, and a retry issues the unit of the register's record, which the
latest message has set. When no message for the register is accepted while a call of `Execute` with
a write of it is under way, a request that is appended to the queue is never older than what is in
it, and taking requests off the queue, at either end, keeps the order.

Such a message comes from the log handler, which `Execute` runs when the queue is full. Its request
is in the queue before the older one that the handler interrupted.
-/

namespace Radapter.Modbus

/-- The number of the accepted value of a register that a callback's request carries. -/
def Callback.seqFor (r : RegisterId) : Callback → Option ℕ
  | .poll _ _ => none
  | .write m reg _ seq => if (m, reg.key) = r then some seq else none

/-- The number of the accepted value of a register that a request carries. -/
def Issued.seqFor (r : RegisterId) (x : Issued Callback) : Option ℕ := x.req.cb.seqFor r

/-- A request carries a value of a register if its callback was made for that write. -/
theorem Issued.seqFor_eq_some {x : Issued Callback} {m : ℕ} {k : Bytes} {n : ℕ} :
    x.seqFor (m, k) = some n ↔ ∃ reg v, x.req.cb = .write m reg v n ∧ reg.key = k := by
  unfold Issued.seqFor
  cases x.req.cb with
  | poll m' i => simp [Callback.seqFor]
  | write m' reg v seq =>
    simp only [Callback.seqFor, Option.ite_none_right_eq_some, Option.some_inj, Prod.mk.injEq]
    constructor
    · rintro ⟨⟨rfl, rfl⟩, rfl⟩
      exact ⟨reg, v, rfl, rfl⟩
    · rintro ⟨_, _, heq, rfl⟩
      cases heq
      exact ⟨⟨rfl, rfl⟩, rfl⟩

namespace Masters

variable {p : Plant}

/-- The run invariant: requests are issued for the latest value of their register, and the
requests sent and queued for a register are in the order of its accepted values. -/
structure Ordered (s : Masters) : Prop where
  known : ∀ op, ∀ x ∈ s.device.queue op, x ∈ s.device.issued ∧ x.op = op
  knownSent : ∀ x ∈ s.device.sent, x ∈ s.device.issued
  knownPending : ∀ f ∈ s.device.stack, f.pending ∈ s.device.issued
  reading : ∀ x ∈ s.device.issued, x.op = .op_read → ∀ r, x.seqFor r = none
  carries : ∀ x ∈ s.device.issued, ∀ r n, x.seqFor r = some n →
    (s.accepted r)[n]? = some x.req.unit
  recorded : ∀ r record, s.inFlight r = some record →
    record.seq + 1 = (s.accepted r).length ∧ (s.accepted r)[record.seq]? = some record.unit
  handed : ∀ f ∈ s.device.stack, ∀ r n, f.pending.seqFor r = some n →
    n + 1 = (s.accepted r).length
  sorted : ∀ r, ((s.device.sent ++ s.device.queue .op_write).filterMap
    (Issued.seqFor r)).Pairwise (· ≤ ·)

/-- At first nothing is kept or sent. -/
theorem ordered_init : Ordered {} where
  known := by simp
  knownSent := by simp
  knownPending := by simp
  reading := by simp
  carries := by simp
  recorded := by simp
  handed := by simp
  sorted := by simp

/-- A request that can be issued: a read, or a write with the latest value of its register. -/
def Latest (s : Masters) (op : Op) (req : Request Callback) : Prop :=
  (op = .op_read → ∀ r, req.cb.seqFor r = none) ∧
    ∀ r n, req.cb.seqFor r = some n →
      n + 1 = (s.accepted r).length ∧ (s.accepted r)[n]? = some req.unit

/-- Appending a request that carries the latest value of its register. -/
private theorem pairwise_concat {l : List (Issued Callback)} {x : Issued Callback}
    {r : RegisterId} {latest : ℕ} (h : (l.filterMap (Issued.seqFor r)).Pairwise (· ≤ ·))
    (hall : ∀ y ∈ l, ∀ n, y.seqFor r = some n → n < latest)
    (hx : ∀ n, x.seqFor r = some n → n + 1 = latest) :
    ((l ++ [x]).filterMap (Issued.seqFor r)).Pairwise (· ≤ ·) := by
  rw [List.filterMap_append, List.pairwise_append]
  refine ⟨h, ?_, ?_⟩
  · cases hseq : x.seqFor r <;> simp [hseq]
  · intro a ha b hb
    obtain ⟨y, hy, hya⟩ := List.mem_filterMap.mp ha
    obtain ⟨z, hz, hzb⟩ := List.mem_filterMap.mp hb
    rw [List.mem_singleton.mp hz] at hzb
    have hlt := hall y hy a hya
    have heq := hx b hzb
    omega

/-- All that was sent or queued is at most as new as the latest value. -/
private theorem Ordered.lt_latest {s : Masters} (h : Ordered s) {r : RegisterId}
    {x : Issued Callback} (hx : x ∈ s.device.sent ++ s.device.queue .op_write) {n : ℕ}
    (hn : x.seqFor r = some n) : n < (s.accepted r).length := by
  have hmem : x ∈ s.device.issued := by
    rcases List.mem_append.mp hx with hx | hx
    · exact h.knownSent x hx
    · exact (h.known .op_write x hx).1
  exact (List.getElem?_eq_some_iff.mp (h.carries x hmem r n hn)).1

section Issue

variable {s : Masters} {op : Op} {req : Request Callback}

/-- The request that is issued next reads, or carries an accepted value. -/
private theorem Ordered.nextIssued (h : Ordered s) (hlatest : Latest s op req) :
    ∀ x ∈ s.device.issued ++ [s.device.nextIssued op req],
      (x.op = .op_read → ∀ r, x.seqFor r = none) ∧
        ∀ r n, x.seqFor r = some n → (s.accepted r)[n]? = some x.req.unit := by
  intro x hx
  rcases List.mem_append.mp hx with hx | hx
  · exact ⟨h.reading x hx, h.carries x hx⟩
  · rw [List.mem_singleton.mp hx]
    exact ⟨hlatest.1, fun r n hn => (hlatest.2 r n hn).2⟩

/-- The rest of a call of `Execute` that has found the queue full. -/
theorem Ordered.overflow (h : Ordered s) (hlatest : Latest s op req)
    (calling : Option (Issued Callback)) :
    Ordered { s with device := s.device.overflow p.device op req, calling := calling } := by
  have hgrow : ∀ x ∈ s.device.issued, x ∈ s.device.issued ++ [s.device.nextIssued op req] :=
    fun x hx => List.mem_append_left _ hx
  have hnew : s.device.nextIssued op req ∈ s.device.issued ++ [s.device.nextIssued op req] := by
    simp
  have hissued := h.nextIssued hlatest
  have hknown : ∀ other, ∀ x ∈ s.device.queue other,
      x ∈ s.device.issued ++ [s.device.nextIssued op req] ∧ x.op = other :=
    fun other x hx => (h.known other x hx).imp_left (hgrow x)
  cases hv : (p.device.onOver op).victim (s.device.queue op) with
  | none =>
    have heq : s.device.overflow p.device op req =
        { s.device with
          issued := s.device.issued ++ [s.device.nextIssued op req], touchedEmpty := true } := by
      simp only [MasterDevice.overflow, hv, MasterDevice.nextIssued]
    rw [heq]
    exact ⟨hknown, fun x hx => hgrow x (h.knownSent x hx),
      fun f hf => hgrow _ (h.knownPending f hf), fun x hx => (hissued x hx).1,
      fun x hx => (hissued x hx).2, h.recorded, h.handed, h.sorted⟩
  | some v =>
    have heq : s.device.overflow p.device op req =
        { s.device with
          issued := s.device.issued ++ [s.device.nextIssued op req]
          called := s.device.called ++ [{ request := v, failed := true }]
          stack := { pending := s.device.nextIssued op req, victim := v } :: s.device.stack } := by
      simp only [MasterDevice.overflow, hv, MasterDevice.nextIssued]
    rw [heq]
    refine ⟨hknown, fun x hx => hgrow x (h.knownSent x hx), ?_, fun x hx => (hissued x hx).1,
      fun x hx => (hissued x hx).2, h.recorded, ?_, h.sorted⟩
    · intro f hf
      rcases List.mem_cons.mp hf with rfl | hf
      · exact hnew
      · exact hgrow _ (h.knownPending f hf)
    · intro f hf r n hn
      rcases List.mem_cons.mp hf with rfl | hf
      · exact (hlatest.2 r n hn).1
      · exact h.handed f hf r n hn

/-- A call of `Execute` with a request for the latest value of its register. -/
theorem Ordered.issue (h : Ordered s) (hlatest : Latest s op req) : Ordered (s.issue p op req) := by
  unfold Masters.issue
  by_cases hover : s.device.Overflows p.device op
  · rw [MasterDevice.Execute_eq_overflow hover]
    exact h.overflow hlatest _
  · have hissued := h.nextIssued hlatest
    have hgrow : ∀ x ∈ s.device.issued, x ∈ s.device.issued ++ [s.device.nextIssued op req] :=
      fun x hx => List.mem_append_left _ hx
    have hnew : s.device.nextIssued op req ∈ s.device.issued ++ [s.device.nextIssued op req] := by
      simp
    have heq : s.device.Execute p.device op req =
        ({ s.device with issued := s.device.issued ++ [s.device.nextIssued op req] } :
          MasterDevice Callback).setQueue op
            (s.device.queue op ++ [s.device.nextIssued op req]) := if_neg hover
    rw [heq]
    refine ⟨?_, fun x hx => hgrow x (h.knownSent x hx), fun f hf => hgrow _ (h.knownPending f hf),
      fun x hx => (hissued x hx).1, fun x hx => (hissued x hx).2, h.recorded, h.handed, ?_⟩
    · intro other x hx
      rcases MasterDevice.mem_queue_setQueue hx with ⟨rfl, hmem⟩ | ⟨-, hmem⟩
      · rcases List.mem_append.mp hmem with hold | hlast
        · exact (h.known other x hold).imp_left (hgrow x)
        · rw [List.mem_singleton.mp hlast]
          exact ⟨hnew, rfl⟩
      · exact (h.known other x hmem).imp_left (hgrow x)
    · intro r
      cases op with
      | op_read => exact h.sorted r
      | op_write =>
        rw [MasterDevice.queue_setQueue_self, ← List.append_assoc]
        exact pairwise_concat (h.sorted r) (fun y hy n hn => h.lt_latest hy hn)
          (fun n hn => (hlatest.2 r n hn).1)

end Issue

/-- A new value of a register, while no call of `Execute` waits with a write of it. -/
theorem Ordered.record {s : Masters} (h : Ordered s) {m : ℕ} {reg : PreparedWriteRegister}
    (hfree : ∀ f ∈ s.device.stack, f.pending.seqFor (m, reg.key) = none)
    (unit : QModbusDataUnit) : Ordered (s.record p m reg unit) := by
  refine ⟨h.known, h.knownSent, h.knownPending, h.reading, ?_, ?_, ?_, h.sorted⟩
  · intro x hx r n hn
    have hold := h.carries x hx r n hn
    simp only [Masters.record]
    by_cases hr : r = (m, reg.key)
    · subst hr
      rw [Function.update_self, List.getElem?_append_left (List.getElem?_eq_some_iff.mp hold).1]
      exact hold
    · rw [Function.update_of_ne hr]
      exact hold
  · intro r rec hrec
    simp only [Masters.record] at hrec ⊢
    by_cases hr : r = (m, reg.key)
    · subst hr
      rw [Function.update_self, Option.some_inj] at hrec
      subst hrec
      simp
    · rw [Function.update_of_ne hr] at hrec ⊢
      exact h.recorded r rec hrec
  · intro f hf r n hn
    have hold := h.handed f hf r n hn
    simp only [Masters.record]
    by_cases hr : r = (m, reg.key)
    · subst hr
      rw [hfree f hf] at hn
      cases hn
    · rw [Function.update_of_ne hr]
      exact hold

/-- Records keep their unit and their number until they are erased. -/
theorem Ordered.of_inFlight {s t : Masters} (h : Ordered s) (hdevice : t.device = s.device)
    (haccepted : t.accepted = s.accepted)
    (hrecords : ∀ r record, t.inFlight r = some record → ∃ old, s.inFlight r = some old ∧
      old.seq = record.seq ∧ old.unit = record.unit) : Ordered t := by
  obtain ⟨device, inFlight, accepted, calling, acking, emitted⟩ := t
  subst hdevice haccepted
  refine ⟨h.known, h.knownSent, h.knownPending, h.reading, h.carries, ?_, h.handed, h.sorted⟩
  intro r record hrecord
  obtain ⟨old, hold, hseq, hunit⟩ := hrecords r record hrecord
  rw [← hseq, ← hunit]
  exact h.recorded r old hold

/-- The rest of a call of `Execute`: the queue loses one end and gains the latest value. -/
theorem Ordered.callbackReturns {s : Masters} (h : Ordered s) {d : MasterDevice Callback}
    (hd : s.device.callbackReturns p.device = some d) : Ordered { s with device := d } := by
  obtain ⟨f, rest, hstack, hcases⟩ := MasterDevice.callbackReturns_cases hd
  rcases hcases with ⟨_, rfl⟩ | ⟨_, rfl⟩
  · exact ⟨h.known, h.knownSent, h.knownPending, h.reading, h.carries, h.recorded, h.handed,
      h.sorted⟩
  · have hf : f ∈ s.device.stack := by simp [hstack]
    have hrest : ∀ g ∈ rest, g ∈ s.device.stack := fun g hg => by simp [hstack, hg]
    have hpop := (p.device.onOver f.pending.op).pop_sublist (s.device.queue f.pending.op)
    refine ⟨?_, h.knownSent, fun g hg => h.knownPending g (hrest g hg), h.reading, h.carries,
      h.recorded, fun g hg => h.handed g (hrest g hg), ?_⟩
    · intro op x hx
      rcases MasterDevice.mem_queue_setQueue hx with ⟨rfl, hmem⟩ | ⟨-, hmem⟩
      · rcases List.mem_append.mp hmem with hold | hlast
        · exact h.known _ x (hpop.mem hold)
        · rw [List.mem_singleton.mp hlast]
          exact ⟨h.knownPending f hf, rfl⟩
      · exact h.known op x hmem
    · intro r
      by_cases hop : Op.op_write = f.pending.op
      · rw [← hop] at hpop
        simp only [MasterDevice.setQueue, ← hop, Function.update_self]
        rw [← List.append_assoc]
        have hsub := (List.Sublist.refl s.device.sent).append hpop
        refine pairwise_concat ((h.sorted r).sublist (hsub.filterMap _)) ?_ (h.handed f hf r)
        exact fun y hy n hn => h.lt_latest (hsub.mem hy) hn
      · rw [MasterDevice.queue_setQueue_ne _ hop]
        exact h.sorted r

/-- A tick moves the oldest queued write to the end of what was sent, or drops it. -/
theorem Ordered.nextReq {s : Masters} (h : Ordered s) (sent : Bool)
    (calling : Option (Issued Callback)) :
    Ordered { s with device := s.device.nextReq sent, calling := calling } := by
  rcases s.device.nextReq_cases sent with heq | ⟨op, x, rest, _, hq, hwrites, heq⟩
  · rw [heq]
    exact ⟨h.known, h.knownSent, h.knownPending, h.reading, h.carries, h.recorded, h.handed,
      h.sorted⟩
  · have hx := h.known op x (by simp [hq])
    have hknown : ∀ other, ∀ y ∈ (s.device.setQueue op rest).queue other,
        y ∈ s.device.issued ∧ y.op = other := by
      intro other y hy
      rcases MasterDevice.mem_queue_setQueue hy with ⟨rfl, hmem⟩ | ⟨-, hmem⟩
      · exact h.known other y (by simp [hq, hmem])
      · exact h.known other y hmem
    have hsub : ((s.device.setQueue op rest).queue .op_write).Sublist
        (s.device.queue .op_write) := by
      cases op with
      | op_write => simp [MasterDevice.setQueue, hq]
      | op_read => simp [MasterDevice.setQueue]
    rw [heq]
    cases sent with
    | true =>
      refine ⟨hknown, ?_, h.knownPending, h.reading, h.carries, h.recorded, h.handed, ?_⟩
      · intro y hy
        rcases List.mem_append.mp hy with hy | hy
        · exact h.knownSent y hy
        · rw [List.mem_singleton.mp hy]
          exact hx.1
      · intro r
        have hsorted := h.sorted r
        cases op with
        | op_write =>
          rw [hq] at hsorted
          simp only [MasterDevice.nextReq.send, if_true, MasterDevice.setQueue,
            Function.update_self, List.append_assoc, List.singleton_append]
          exact hsorted
        | op_read =>
          have hnone : x.seqFor r = none := h.reading x hx.1 hx.2 r
          rw [hwrites rfl, List.append_nil] at hsorted
          simp only [MasterDevice.nextReq.send, if_true, MasterDevice.setQueue, ne_eq,
            reduceCtorEq, not_false_eq_true, Function.update_of_ne, hwrites rfl, List.append_nil]
          rw [List.filterMap_append, List.filterMap_cons_none hnone, List.filterMap_nil,
            List.append_nil]
          exact hsorted
    | false =>
      refine ⟨hknown, h.knownSent, h.knownPending, h.reading, h.carries, h.recorded, h.handed, ?_⟩
      intro r
      exact (h.sorted r).sublist (((List.Sublist.refl _).append hsub).filterMap _)

/-- A finished reply. -/
theorem Ordered.finished {s : Masters} (h : Ordered s) {failed : Bool} {d : MasterDevice Callback}
    (hd : s.device.finished failed = some d) (calling : Option (Issued Callback)) :
    Ordered { s with device := d, calling := calling } := by
  obtain ⟨hqueue, hstack, hissued, hsent, _⟩ := MasterDevice.finished_frame hd
  obtain ⟨queue, flight, stack, destroyed, issued, sent, called, dropped, touchedEmpty⟩ := d
  subst hqueue hstack hissued hsent
  exact ⟨h.known, h.knownSent, h.knownPending, h.reading, h.carries, h.recorded, h.handed,
    h.sorted⟩

/-- Erasing records. -/
private theorem Ordered.succeed {s : Masters} (h : Ordered s) (x : Issued Callback) :
    Ordered (s.succeed x) := by
  unfold Masters.succeed
  cases x.req.cb with
  | poll m i => exact h
  | write m reg v seq =>
    simp only [Masters.ok]
    split
    · exact h.of_inFlight rfl rfl (fun r record hr => ⟨record, hr, rfl, rfl⟩)
    · exact h.of_inFlight rfl rfl (fun r record hr => ⟨record, of_update_none hr, rfl, rfl⟩)

/-- A request made from the record of its register. -/
private theorem Ordered.latest {s : Masters} (h : Ordered s) {m : ℕ} {reg : PreparedWriteRegister}
    {record : InFlight} (hrecord : s.inFlight (m, reg.key) = some record) (v : Scalar) :
    Latest s .op_write (writeRequest p m record.unit reg v record.seq) := by
  refine ⟨by simp, ?_⟩
  intro r n hn
  simp only [writeRequest, Callback.seqFor, Option.ite_none_right_eq_some, Option.some_inj] at hn
  obtain ⟨rfl, rfl⟩ := hn
  exact h.recorded _ record hrecord

/-- The request of a poll. -/
private theorem latest_poll (s : Masters) (m i : ℕ) (read : MergedRead) :
    Latest s .op_read (pollRequest p m i read) :=
  ⟨fun _ _ => rfl, by simp [pollRequest, Callback.seqFor]⟩

/-- Retries are counted in the record. -/
private theorem Ordered.spend {s : Masters} (h : Ordered s) {r : RegisterId} {record : InFlight}
    (hrecord : s.inFlight r = some record) :
    Ordered (({ s with calling := none } : Masters).spend r record) := by
  refine h.of_inFlight rfl rfl fun other left hleft => ?_
  simp only [Masters.spend] at hleft
  by_cases hkey : other = r
  · subst hkey
    rw [Function.update_self, Option.some_inj] at hleft
    subst hleft
    exact ⟨record, hrecord, rfl, rfl⟩
  · rw [Function.update_of_ne hkey] at hleft
    exact ⟨left, hleft, rfl, rfl⟩

/-- No call of `Execute` waits. -/
private theorem Quiet.free {s : Masters} (h : s.Quiet) (r : RegisterId) :
    ∀ f ∈ s.device.stack, f.pending.seqFor r = none := by
  intro f hf
  rw [h.2] at hf
  cases hf

/-- Every step keeps the order. -/
theorem Ordered.step {s t : Masters} {a : Action} (h : Ordered s) (ht : s.step p a = some t) :
    Ordered t := by
  cases effect_of_step ht with
  | refuse => exact h
  | @accept m k v valid reg unit hquiet _ _ =>
    have hrecord := h.record (p := p) (hquiet.free (m, reg.key)) unit
    exact hrecord.issue (hrecord.latest (Function.update_self ..) v)
  | poll => exact h.issue (latest_poll s _ _ _)
  | nextReq => exact h.nextReq _ _
  | failed _ _ _ hd => exact h.finished hd _
  | succeeded _ _ _ _ hd => exact (h.finished hd s.calling).succeed _
  | giveUp => exact h.of_inFlight rfl rfl (fun r record hr => ⟨record, hr, rfl, rfl⟩)
  | retry _ _ _ hrecord =>
    have hspent := h.spend hrecord
    exact hspent.issue (hspent.latest (Function.update_self ..) _)
  | callbackReturns _ _ hd => exact h.callbackReturns hd
  | emitted =>
    exact h.of_inFlight rfl rfl (fun r record hr => ⟨record, of_update_none hr, rfl, rfl⟩)

/-- The call of `Execute` that a step makes is for the latest value. -/
theorem Ordered.requested {s t : Masters} {a : Action} {op : Op} {req : Request Callback}
    (h : Ordered s) (ht : s.requested p a = some (t, op, req)) : Ordered t ∧ Latest t op req := by
  cases a with
  | entry m k v valid =>
    simp only [Masters.requested] at ht
    split at ht
    · next hquiet =>
      cases haccept : p.accept m k v valid with
      | none => simp [haccept] at ht
      | some pair =>
        simp only [haccept] at ht
        cases ht
        have hrecord := h.record (p := p) (hquiet.free (m, pair.1.key)) pair.2
        exact ⟨hrecord, hrecord.latest (Function.update_self ..) v⟩
    · cases ht
  | poll m i =>
    simp only [Masters.requested] at ht
    split at ht
    · cases hread : (p.masters m).reads[i]? with
      | none => simp [hread] at ht
      | some read =>
        simp only [hread] at ht
        cases ht
        exact ⟨h, latest_poll s m i read⟩
    · cases ht
  | callback =>
    simp only [Masters.requested] at ht
    cases hcalling : s.calling with
    | none => simp [hcalling] at ht
    | some x =>
      simp only [hcalling] at ht
      cases hcb : x.req.cb with
      | poll m i => simp [hcb] at ht
      | write m reg v seq =>
        simp only [hcb] at ht
        cases hrecord : s.inFlight (m, reg.key) with
        | none => simp [hrecord] at ht
        | some record =>
          simp only [hrecord] at ht
          split at ht
          · cases ht
          · cases ht
            have hspent := h.spend hrecord
            exact ⟨hspent, hspent.latest (Function.update_self ..) _⟩
  | nextReq sent => cases ht
  | finished failed => cases ht
  | callbackReturns => cases ht
  | emitted => cases ht

/-- A request for another register stays one for the latest value. -/
theorem Latest.record {s : Masters} {op : Op} {req : Request Callback} (h : Latest s op req)
    {m : ℕ} {reg : PreparedWriteRegister} (hfree : req.cb.seqFor (m, reg.key) = none)
    (unit : QModbusDataUnit) : Latest (s.record p m reg unit) op req := by
  refine ⟨h.1, ?_⟩
  intro r n hn
  simp only [Masters.record]
  by_cases hr : r = (m, reg.key)
  · subst hr
    rw [hfree] at hn
    cases hn
  · rw [Function.update_of_ne hr]
    exact h.2 r n hn

/-- Only a message adds to the values that have been accepted. -/
theorem accepted_of_step {s t : Masters} {a : Action} (ht : s.step p a = some t)
    (ha : a = .callback ∨ a = .callbackReturns) : t.accepted = s.accepted := by
  rcases ha with rfl | rfl
  · cases effect_of_step ht <;> rfl
  · cases effect_of_step ht
    rfl

end Masters

/-! ## Messages from the log handler -/

namespace Logging

open Masters

variable {p : Plant}

/-- A message for a register is accepted while no call of `Execute` with a write of it is under
way. -/
def InTurn (p : Plant) (s : Logging) : Action → Prop
  | .run (.entry m k v valid) =>
      p.accept m k v valid = none ∨ ∀ req ∈ s.executing, req.cb.seqFor (m, k) = none
  | _ => True

instance (s : Logging) : (a : Action) → Decidable (InTurn p s a)
  | .run (.entry m k v valid) =>
      inferInstanceAs (Decidable (p.accept m k v valid = none ∨
        ∀ req ∈ s.executing, req.cb.seqFor (m, k) = none))
  | .run (.poll _ _) => isTrue trivial
  | .run (.nextReq _) => isTrue trivial
  | .run (.finished _) => isTrue trivial
  | .run .callback => isTrue trivial
  | .run .callbackReturns => isTrue trivial
  | .run .emitted => isTrue trivial
  | .overflow _ => isTrue trivial
  | .failing => isTrue trivial
  | .givesUp => isTrue trivial
  | .returns => isTrue trivial

/-- The run invariant: the masters' one, and an interrupted call of `Execute` has a request for
the latest value. -/
structure InOrder (s : Logging) : Prop where
  ordered : Ordered s.masters
  latest : ∀ h ∈ s.handler, ∀ op req, h.interrupted = .overflow op req →
    Latest s.masters op req

/-- A request of an interrupted call is under way. -/
theorem mem_executing {s : Logging} {h : RunningHandler} (hh : s.handler = some h) {op : Op}
    {req : Request Callback} (hreq : h.interrupted = .overflow op req) : req ∈ s.executing := by
  rw [executing, hh, Option.bind_some, hreq]
  exact List.mem_append_left _ (List.mem_singleton_self req)

/-- A step inside the log handler. -/
theorem InOrder.inside {s : Logging} (hs : InOrder s) {h : RunningHandler} (hh : s.handler = some h)
    {a : Masters.Action} (hturn : InTurn p s (.run a)) {t : Masters}
    (ht : inside p s.masters h.waiting a = some t) :
    InOrder { masters := t, handler := some h } := by
  have hkeep : a = .callback ∨ a = .callbackReturns → s.masters.step p a = some t →
      InOrder { masters := t, handler := some h } := by
    intro ha hstep
    refine ⟨hs.ordered.step hstep, ?_⟩
    rintro _ ⟨⟩ op req hreq
    have hlatest := hs.latest h hh op req hreq
    rwa [Latest, ← accepted_of_step hstep ha] at hlatest
  cases a with
  | entry m k v valid =>
    obtain ⟨-, hst⟩ := Option.ite_none_right_eq_some.mp ht
    unfold enter at hst
    cases haccept : p.accept m k v valid with
    | none =>
      simp only [haccept] at hst
      cases hst
      exact ⟨hs.ordered, fun h' hh' => hs.latest h' (hh.trans hh')⟩
    | some pair =>
      simp only [haccept] at hst
      obtain ⟨-, rfl⟩ := execute_eq_some hst
      obtain ⟨hkey, -⟩ := accept_eq_some haccept
      have hfree : ∀ req ∈ s.executing, req.cb.seqFor (m, pair.1.key) = none := by
        rw [hkey]
        exact hturn.resolve_left (by simp [haccept])
      have hstack : ∀ f ∈ s.masters.device.stack, f.pending.seqFor (m, pair.1.key) = none := by
        intro f hf
        exact hfree _ (List.mem_append_right _ (List.mem_map.mpr ⟨f, hf, rfl⟩))
      have hrecord := hs.ordered.record (p := p) hstack pair.2
      refine ⟨hrecord.issue (hrecord.latest (Function.update_self ..) v), ?_⟩
      rintro _ ⟨⟩ op req hreq
      have hlatest := (hs.latest h hh op req hreq).record (p := p)
        (hfree req (mem_executing hh hreq)) pair.2
      exact hlatest
  | callback => exact hkeep (.inl rfl) ht
  | callbackReturns =>
    obtain ⟨-, hstep⟩ := Option.ite_none_right_eq_some.mp ht
    exact hkeep (.inr rfl) hstep
  | poll m i => cases ht
  | nextReq sent => cases ht
  | finished failed => cases ht
  | emitted => cases ht

/-- Without a log handler that runs nothing is interrupted. -/
theorem InOrder.of_ordered {s : Masters} (h : Ordered s) : InOrder { masters := s } where
  ordered := h
  latest := by simp

/-- A log handler is called where `Execute` is not under way. -/
private theorem InOrder.interrupted {s : Masters} (h : Ordered s) {i : Interrupted}
    (hi : i.request = none) (calling : Option (Issued Callback)) (waiting : ℕ) :
    InOrder { masters := { s with calling := calling }, handler := some ⟨i, waiting⟩ } := by
  refine ⟨h.of_inFlight rfl rfl fun r record hr => ⟨record, hr, rfl, rfl⟩, ?_⟩
  rintro _ ⟨⟩ op req hreq
  have hreq : i = .overflow op req := hreq
  rw [hreq] at hi
  cases hi

/-- The interrupted code goes on. -/
private theorem InOrder.resume {s : Logging} (hs : InOrder s) {h : RunningHandler}
    (hh : s.handler = some h) {t : Masters} (ht : resume p s.masters h.interrupted = some t) :
    Ordered t := by
  cases hi : h.interrupted with
  | overflow op req =>
    rw [hi] at ht
    simp only [Logging.resume, Masters.overflow] at ht
    split at ht
    · cases ht
    · cases ht
      exact hs.ordered.overflow (hs.latest h hh op req hi) _
  | callback x =>
    rw [hi] at ht
    cases ht
    exact hs.ordered.of_inFlight rfl rfl fun r record hr => ⟨record, hr, rfl, rfl⟩
  | ended =>
    rw [hi] at ht
    cases ht
    exact hs.ordered

/-- Every step in turn keeps the order. -/
theorem InOrder.step {s t : Logging} {a : Action} (hs : InOrder s) (hturn : InTurn p s a)
    (ht : step p s a = some t) : InOrder t := by
  unfold Logging.step at ht
  cases hh : s.handler with
  | none =>
    cases a with
    | run a =>
      simp only [hh] at ht
      obtain ⟨u, hu, rfl⟩ := Option.map_eq_some_iff.mp ht
      exact .of_ordered (hs.ordered.step hu)
    | overflow a =>
      simp only [hh] at ht
      cases hrequested : s.masters.requested p a with
      | none => simp [hrequested] at ht
      | some found =>
        simp only [hrequested] at ht
        obtain ⟨-, ht⟩ := Option.ite_none_right_eq_some.mp ht
        cases ht
        obtain ⟨hordered, hlatest⟩ := hs.ordered.requested hrequested
        refine ⟨hordered, ?_⟩
        rintro _ ⟨⟩ op req ⟨⟩
        exact hlatest
    | failing =>
      simp only [hh] at ht
      obtain ⟨x, -, rfl⟩ := Option.map_eq_some_iff.mp ht
      exact .interrupted hs.ordered rfl none _
    | givesUp =>
      simp only [hh] at ht
      obtain ⟨-, ht⟩ := Option.ite_none_right_eq_some.mp ht
      cases ht
      exact .interrupted hs.ordered rfl none _
    | returns => simp [hh] at ht
  | some h =>
    cases a with
    | run a =>
      simp only [hh] at ht
      obtain ⟨u, hu, rfl⟩ := Option.map_eq_some_iff.mp ht
      exact hs.inside hh hturn hu
    | returns =>
      simp only [hh] at ht
      obtain ⟨-, ht⟩ := Option.ite_none_right_eq_some.mp ht
      obtain ⟨u, hu, rfl⟩ := Option.map_eq_some_iff.mp ht
      exact .of_ordered (hs.resume hh hu)
    | overflow a => simp [hh] at ht
    | failing => simp [hh] at ht
    | givesUp => simp [hh] at ht

end Logging

end Radapter.Modbus
