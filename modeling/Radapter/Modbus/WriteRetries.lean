import Radapter.Modbus.WriteAttempts

/-!
# When a write is given up

As long as the record of a register is there, every failed request of the register issues the
latest value again and costs one retry, so the value is given up only when the retries are used
up and every attempt has failed. The record is erased by an acknowledgement of any request of
the register, and an overflow may remove requests without a callback; the condition on the runs
keeps both away.
-/

namespace Radapter.Modbus

namespace Masters

variable {p : Plant}

/-- Steps that issue nothing and leave the records alone. -/
private theorem Tracked.of_records {s t : Masters} (h : Tracked p s) (hordered : Ordered t)
    (hinv : MasterDevice.Inv p.device t.device) (hdestroyed : t.device.destroyed = [])
    (hissued : t.device.issued = s.device.issued)
    (hcalled : ∀ c ∈ s.device.called, c ∈ t.device.called)
    (hrecords : t.inFlight = s.inFlight ∧ t.accepted = s.accepted ∧ t.acking = s.acking)
    (htop : ∀ x, t.calling = some x → ∀ f ∈ t.device.stack, f.victim = x)
    (hvictims : t.calling = none → ∀ f ∈ t.device.stack, ∀ r n record,
      f.victim.seqFor r = some n → s.inFlight r = some record → record.retriesLeft = 0)
    (htrying : ∀ r record, s.inFlight r = some record → 0 < record.retriesLeft →
      s.Trying r record.seq → t.Trying r record.seq) : Tracked p t := by
  obtain ⟨hinFlight, haccepted, hacking⟩ := hrecords
  refine ⟨hordered, hinv, hdestroyed, htop, ?_, ?_, ?_, ?_, ?_⟩
  · rw [hinFlight]
    exact hvictims
  · rw [hinFlight, hissued]
    exact h.counted
  · intro r record hrecord hleft
    rw [hinFlight] at hrecord
    exact htrying r record hrecord hleft (h.trying r record hrecord hleft)
  · intro r n hn hnone
    rw [haccepted] at hn
    rw [hinFlight] at hnone
    exact (h.settled r n hn hnone).mono hcalled
  · intro r n hr hn
    rw [haccepted] at hn
    rw [hacking] at hr
    exact (h.acking r n hr hn).mono hcalled

/-- The request a tick takes off its queue. -/
theorem upNext_eq {s : Masters} {op : Op} {x : Issued Callback} {rest : List (Issued Callback)}
    (hflight : s.device.flight = none) (hq : s.device.queue op = x :: rest)
    (hwrites : op = .op_read → s.device.queue .op_write = []) : s.upNext = some x := by
  unfold upNext
  rw [hflight, Option.isSome_none, if_neg (by simp)]
  cases op with
  | op_write =>
    rw [hq]
    rfl
  | op_read =>
    rw [hwrites rfl, hq]
    rfl

/-- A tick takes the place of no request but the one it fails to send. -/
theorem places_le_nextReq (s : Masters) (sent : Bool) {x : Issued Callback}
    (hx : sent = true ∨ s.upNext ≠ some x) :
    s.device.places x ≤ (s.device.nextReq sent).places x := by
  rcases s.device.nextReq_cases sent with heq | ⟨op, y, rest, hflight, hq, hwrites, heq⟩
  · exact Nat.le_of_eq (by rw [heq])
  have hcount : (s.device.queue x.op).count x ≤
      ((s.device.setQueue op rest).queue x.op).count x + [y].count x := by
    by_cases hop : x.op = op
    · rw [hop, MasterDevice.queue_setQueue_self, hq, List.count_cons, List.count_cons,
        List.count_nil]
      omega
    · rw [MasterDevice.queue_setQueue_ne _ hop]
      omega
  rw [heq]
  unfold MasterDevice.places
  cases sent with
  | true =>
    change _ ≤ ((s.device.setQueue op rest).queue x.op).count x + [y].count x + _
    rw [hflight, Option.toList_none, List.count_nil]
    exact Nat.add_le_add_right hcount _
  | false =>
    have hne : x ≠ y := by
      rintro rfl
      exact (hx.resolve_left (by simp)) (upNext_eq hflight hq hwrites)
    have hzero : [y].count x = 0 := List.count_eq_zero.mpr (by simpa using hne)
    rw [hzero, Nat.add_zero] at hcount
    exact Nat.add_le_add_right (Nat.add_le_add_right hcount _) _

/-- While nothing waits, no callback is running that would make another attempt. -/
private theorem Trying.of_quiet {s t : Masters} {r : RegisterId} {n : ℕ} (h : s.Trying r n)
    (hquiet : s.Quiet) (hissued : t.device.issued = s.device.issued)
    (hcalled : ∀ c ∈ s.device.called, c ∈ t.device.called)
    (hplaces : ∀ x ∈ s.device.issued, x.seqFor r = some n →
      s.device.places x ≤ t.device.places x ∨ t.calling = some x ∨ t.Acked r n) :
    t.Trying r n := by
  rcases h with ⟨x, hx, hseq, hpos⟩ | ⟨x, k, hx, _⟩ | hacked
  · rcases hplaces x hx hseq with hle | hcalling | hacked
    · exact .inl ⟨x, hissued ▸ hx, hseq, Nat.lt_of_lt_of_le hpos hle⟩
    · exact .inr (.inl ⟨x, n, hcalling, hseq⟩)
    · exact .inr (.inr hacked)
  · rw [hquiet.1] at hx
    cases hx
  · exact .inr (.inr (hacked.mono hcalled))

/-- A tick. -/
private theorem Tracked.nextReq {s : Masters} (h : Tracked p s) (hquiet : s.Quiet) (sent : Bool)
    (hordered : Ordered
      { s with device := s.device.nextReq sent, calling := if sent then none else s.upNext }) :
    Tracked p
      { s with device := s.device.nextReq sent, calling := if sent then none else s.upNext } := by
  obtain ⟨hissued, hdestroyed, hstack⟩ := s.device.nextReq_frame sent
  have hempty : (s.device.nextReq sent).stack = [] := hstack.trans hquiet.2
  have hcalled : ∀ c ∈ s.device.called, c ∈ (s.device.nextReq sent).called :=
    fun c hc => s.device.mem_called_nextReq sent hc
  refine h.of_records hordered (h.inv.nextReq hquiet.2 sent) (hdestroyed.trans h.alive) hissued
    hcalled ⟨rfl, rfl, rfl⟩ (by simp [hempty]) (by simp [hempty]) ?_
  intro r record _ _ htrying
  refine htrying.of_quiet hquiet hissued hcalled fun x _ _ => ?_
  by_cases hx : sent = true ∨ s.upNext ≠ some x
  · exact .inl (s.places_le_nextReq sent hx)
  · obtain ⟨hsent, hnext⟩ := not_or.mp hx
    refine .inr (.inl ?_)
    change (if sent = true then none else s.upNext) = some x
    rw [if_neg hsent]
    exact not_not.mp hnext

/-- A finished reply: a failed request is called next, and one with a result is acknowledged. -/
private theorem Tracked.finished {s : Masters} (h : Tracked p s) (hquiet : s.Quiet)
    {x : Issued Callback} (hflight : s.device.flight = some x) {d : MasterDevice Callback}
    {failed : Bool} (hd : s.device.finished failed = some d)
    {calling : Option (Issued Callback)} (hcalling : failed = true → calling = some x)
    (hordered : Ordered { s with device := d, calling := calling }) :
    Tracked p { s with device := d, calling := calling } := by
  obtain ⟨_, hstack, hissued, _, hdestroyed⟩ := MasterDevice.finished_frame hd
  have hempty : d.stack = [] := hstack.trans hquiet.2
  have hcalled := MasterDevice.called_finished h.alive hflight hd
  have hmono : ∀ c ∈ s.device.called, c ∈ d.called := by
    intro c hc
    rw [hcalled]
    exact List.mem_append_left _ hc
  refine h.of_records hordered (h.inv.finished hquiet.2 hd) (hdestroyed.trans h.alive) hissued
    hmono ⟨rfl, rfl, rfl⟩ (by simp [hempty]) (by simp [hempty]) ?_
  intro r record _ _ htrying
  refine htrying.of_quiet hquiet hissued hmono fun y _ hseq => ?_
  by_cases hy : y = x
  · subst hy
    cases failed with
    | true => exact .inr (.inl (hcalling rfl))
    | false =>
      refine .inr (.inr ⟨{ request := y, failed := false }, ?_, rfl, hseq⟩)
      rw [hcalled]
      simp
  · refine .inl (MasterDevice.places_le_finished hd ?_)
    rw [hflight]
    simpa using Ne.symm hy

/-- A callback that issues nothing: its register has no retries left. -/
private theorem Tracked.giveUp {s : Masters} (h : Tracked p s) {x : Issued Callback}
    (hcalling : s.calling = some x)
    (hnone : ∀ {m reg v seq}, x.req.cb = .write m reg v seq →
      ∀ record, s.inFlight (m, reg.key) = some record → record.retriesLeft = 0)
    (hordered : Ordered { s with calling := none }) : Tracked p { s with calling := none } := by
  have hspent : ∀ r n record, x.seqFor r = some n → s.inFlight r = some record →
      record.retriesLeft = 0 := by
    rintro ⟨m, k⟩ n record hn hrecord
    obtain ⟨reg, v, hcb, rfl⟩ := Issued.seqFor_eq_some.mp hn
    exact hnone hcb record hrecord
  refine h.of_records hordered h.inv h.alive rfl (fun c hc => hc) ⟨rfl, rfl, rfl⟩ (by simp) ?_ ?_
  · intro _ f hf r n record hn hrecord
    rw [h.top x hcalling f hf] at hn
    exact hspent r n record hn hrecord
  · intro r record hrecord hleft htrying
    rcases htrying with hkept | ⟨y, k, hy, hk⟩ | hacked
    · exact .inl hkept
    · rw [hcalling] at hy
      cases hy
      have hzero := hspent r k record hk hrecord
      omega
    · exact .inr (.inr hacked)

/-- The rest of a call of `Execute` removes a request whose callback had no retries left. -/
private theorem Tracked.callbackReturns {s : Masters} (h : Tracked p s)
    (hcalling : s.calling = none) {d : MasterDevice Callback}
    (hd : s.device.callbackReturns p.device = some d)
    (hordered : Ordered { s with device := d }) : Tracked p { s with device := d } := by
  obtain ⟨hissued, hcalled, hdestroyed⟩ := MasterDevice.callbackReturns_frame hd
  have hstack : ∀ f ∈ d.stack, f ∈ s.device.stack := by
    obtain ⟨f, rest, hstack, ⟨_, rfl⟩ | ⟨_, rfl⟩⟩ := MasterDevice.callbackReturns_cases hd
    · exact fun g hg => hg
    · intro g hg
      rw [hstack]
      exact List.mem_cons_of_mem _ hg
  have hmono : ∀ c ∈ s.device.called, c ∈ d.called := fun c hc => hcalled ▸ hc
  refine h.of_records hordered (h.inv.callbackReturns hd) (hdestroyed.trans h.alive) hissued
    hmono ⟨rfl, rfl, rfl⟩ (by simp [hcalling]) ?_ ?_
  · exact fun _ f hf => h.victims hcalling f (hstack f hf)
  · intro r record hrecord hleft htrying
    rcases htrying with ⟨x, hx, hseq, hpos⟩ | ⟨x, k, hx, _⟩ | hacked
    · refine .inl ⟨x, hissued ▸ hx, hseq, Nat.lt_of_lt_of_le hpos ?_⟩
      apply h.inv.places_le_callbackReturns hd
      rintro f hf rfl
      have hzero := h.victims hcalling f hf r _ record hseq hrecord
      omega
    · rw [hcalling] at hx
      cases hx
    · exact .inr (.inr (hacked.mono hmono))

/-- Records are erased, and registers wait for `ok` to erase theirs, only after an
acknowledgement of their most recent value. -/
private theorem Tracked.acknowledge {s t : Masters} (h : Tracked p s) (hordered : Ordered t)
    (hsame : t.device = s.device ∧ t.calling = s.calling ∧ t.accepted = s.accepted)
    (hkept : ∀ r record, t.inFlight r = some record → s.inFlight r = some record)
    (hacked : ∀ r n, n + 1 = (s.accepted r).length → t.inFlight r = none ∨ t.acking = some r →
      s.inFlight r = none ∨ s.acking = some r ∨ s.Acked r n) : Tracked p t := by
  obtain ⟨hdevice, hcalling, haccepted⟩ := hsame
  have hmono : ∀ c ∈ s.device.called, c ∈ t.device.called := by simp [hdevice]
  have hall : ∀ r n, n + 1 = (t.accepted r).length → t.inFlight r = none ∨ t.acking = some r →
      t.Acked r n := by
    intro r n hn hr
    rw [haccepted] at hn
    rcases hacked r n hn hr with hnone | hacking | hdone
    · exact (h.settled r n hn hnone).mono hmono
    · exact (h.acking r n hacking hn).mono hmono
    · exact hdone.mono hmono
  refine ⟨hordered, hdevice ▸ h.inv, hdevice ▸ h.alive, ?_, ?_, ?_, ?_,
    fun r n hn hnone => hall r n hn (.inl hnone), fun r n hr hn => hall r n hn (.inr hr)⟩
  · rw [hcalling, hdevice]
    exact h.top
  · rw [hcalling, hdevice]
    exact fun hnone f hf r n record hn hrecord =>
      h.victims hnone f hf r n record hn (hkept r record hrecord)
  · rw [hdevice]
    exact fun r record hrecord => h.counted r record (hkept r record hrecord)
  · intro r record hrecord hleft
    rw [Trying, Acked, hdevice, hcalling]
    exact h.trying r record (hkept r record hrecord) hleft

/-- A record is erased after an acknowledgement of the most recent value of its register. -/
private theorem Tracked.erase {s t : Masters} (h : Tracked p s) (hordered : Ordered t)
    (hsame : t.device = s.device ∧ t.calling = s.calling ∧ t.accepted = s.accepted)
    {r : RegisterId} (hinFlight : t.inFlight = Function.update s.inFlight r none)
    (hacking : ∀ other, t.acking = some other → s.acking = some other)
    (hacked : ∀ n, n + 1 = (s.accepted r).length → s.acking = some r ∨ s.Acked r n) :
    Tracked p t := by
  refine h.acknowledge hordered hsame ?_ ?_
  · intro other record hrecord
    rw [hinFlight] at hrecord
    exact of_update_none hrecord
  · rintro other n hn (hnone | hother)
    · by_cases hr : other = r
      · subst hr
        exact .inr (hacked n hn)
      · rw [hinFlight, Function.update_of_ne hr] at hnone
        exact .inl hnone
    · exact .inr (.inl (hacking other hother))

/-- The callback of an acknowledged write of the most recent value of its register. -/
private theorem Tracked.succeed {s : Masters} (h : Tracked p s) {x : Issued Callback}
    (hnewest : s.Newest x.req.cb)
    (hcalled : ({ request := x, failed := false } : Call Callback) ∈ s.device.called)
    (hordered : Ordered (s.succeed x)) : Tracked p (s.succeed x) := by
  unfold Masters.succeed at hordered ⊢
  cases hcb : x.req.cb with
  | poll m i => exact h
  | write m reg v seq =>
    have hacked : ∀ n, n + 1 = (s.accepted (m, reg.key)).length → s.Acked (m, reg.key) n := by
      intro n hn
      rw [hcb] at hnewest
      change seq + 1 = _ at hnewest
      obtain rfl : seq = n := by omega
      exact ⟨_, hcalled, rfl, Issued.seqFor_eq_some.mpr ⟨reg, v, hcb, rfl⟩⟩
    simp only [hcb, Masters.ok] at hordered ⊢
    split
    · next hwriteOnly =>
      rw [if_pos hwriteOnly] at hordered
      refine h.acknowledge hordered ⟨rfl, rfl, rfl⟩ (fun r record hr => hr) ?_
      rintro r n hn (hnone | hacking)
      · exact .inl hnone
      · cases hacking
        exact .inr (.inr (hacked n hn))
    · next hwriteOnly =>
      rw [if_neg hwriteOnly] at hordered
      exact h.erase hordered ⟨rfl, rfl, rfl⟩ rfl (fun r hr => hr)
        (fun n hn => .inr (hacked n hn))

/-- Every step that meets the condition keeps the invariant. -/
theorem Tracked.step (hlimits : ∀ op, 0 < p.device.limit op) {s t : Masters} {a : Action}
    (h : Tracked p s) (hkeeps : s.KeepsRecord p a) (ht : s.step p a = some t) : Tracked p t := by
  have hordered := h.ordered.step ht
  cases effect_of_step ht with
  | refuse => exact h
  | @accept m k v valid reg unit hquiet _ haccept =>
    refine h.accept hquiet (hlimits _) ?_ hordered
    rw [(accept_eq_some haccept).1]
    exact hkeeps (by rw [haccept]; rfl)
  | poll hquiet => exact h.poll hquiet (hlimits _) hordered
  | nextReq hquiet => exact h.nextReq hquiet _ hordered
  | failed hquiet _ hflight hd => exact h.finished hquiet hflight hd (fun _ => rfl) hordered
  | @succeeded x d hquiet _ _ hflight hd =>
    have hcalled := MasterDevice.called_finished h.alive hflight hd
    refine (h.finished hquiet hflight hd (by simp) ?_).succeed ?_ ?_ hordered
    · exact h.ordered.finished hd _
    · exact hkeeps rfl x hflight
    · rw [hcalled]
      simp
  | giveUp hcalling hnone => exact h.giveUp hcalling hnone hordered
  | retry hcalling _ hcb hrecord hleft =>
    have hstack : s.device.stack = [] := by
      by_contra hne
      have hretrying := retrying_eq_some hcalling hcb hrecord hleft
      rw [hkeeps hne] at hretrying
      cases hretrying
    exact h.retry hstack (hlimits _) hcalling hcb hrecord hleft hordered
  | callbackReturns hcalling _ hd => exact h.callbackReturns hcalling hd hordered
  | emitted hquiet hacking =>
    exact h.erase hordered ⟨rfl, rfl, rfl⟩ rfl (by simp) (fun n hn => .inl hacking)

end Masters

end Radapter.Modbus
