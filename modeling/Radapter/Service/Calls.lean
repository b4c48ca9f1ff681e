import Radapter.Service.Table

/-!
# Callbacks are invoked once

Whatever the order of requests, responses and ticks, a request that waits is in the table under its
own id, and its callback is invoked when it leaves the table.
-/

namespace Radapter.Service

open Library

/-! ## What a step can do -/

/-- A sweep that is under way has still to process the id. -/
def State.Listed (s : State) (id : ℕ) : Prop :=
  ∃ t toRemove, .sweep toRemove ∈ s.fibers t ∧ id ∈ toRemove

/-- The step has nothing to do with requests. -/
def Quiet (s : State) : ℕ × Op → Prop
  | (_, .start) | (_, .next_id) | (_, .pcall) | (_, .ret) => True
  | (t, .next) => ∀ id toRemove rest, s.fibers t ≠ .sweep (id :: toRemove) :: rest
  | _ => False

/-- What a step can do to the table, the log and the ids that sweeps have still to process. -/
inductive Effect (timeout : ℤ) (s s' : State) : ℕ × Op → Prop where
  | quiet {a : ℕ × Op} (hquiet : Quiet s a) (hreqs : s'.reqs = s.reqs)
      (hissued : s.issued ≤ s'.issued) (hlog : s'.log = s.log)
      (hlisted : ∀ id, s'.Listed id ↔ s.Listed id) : Effect timeout s s' a
  | request (t : ℕ) (hreqs : s'.reqs = Assoc.put (idOf s.issued) ⟨timeout, s.issued⟩ s.reqs)
      (hissued : s'.issued = s.issued + 1) (hlog : s'.log = s.log ++ [.requested s.issued])
      (hlisted : ∀ id, s'.Listed id ↔ s.Listed id) : Effect timeout s s' (t, .request)
  | responce (t id : ℕ) (req : Request) (hreq : s.reqs.lookup id = some req)
      (hreqs : s'.reqs = Assoc.erase id s.reqs) (hissued : s'.issued = s.issued)
      (hlog : s'.log = s.log ++ [.invoked req.cb (.msg id) s.issued])
      (hlisted : ∀ id, s'.Listed id ↔ s.Listed id) : Effect timeout s s' (t, .responce (some id))
  | unknown (t : ℕ) (id : Option ℕ) (text : String) (hid : ∀ id₀ ∈ id, s.reqs.lookup id₀ = none)
      (hreqs : s'.reqs = s.reqs) (hissued : s'.issued = s.issued)
      (hlog : s'.log = s.log ++ [.warn text id]) (hlisted : ∀ id, s'.Listed id ↔ s.Listed id) :
      Effect timeout s s' (t, .responce id)
  | expire (t id : ℕ) (toRemove : List ℕ) (rest : List Frame) (req : Request)
      (hstack : s.fibers t = .sweep (id :: toRemove) :: rest)
      (hreq : s.reqs.lookup id = some req) (hreqs : s'.reqs = Assoc.erase id s.reqs)
      (hissued : s'.issued = s.issued)
      (hlog : s'.log = s.log ++ [.invoked req.cb timeoutError s.issued])
      (hlisted : ∀ id, s'.Listed id ↔ (s.setFiber t (.sweep toRemove :: rest)).Listed id) :
      Effect timeout s s' (t, .next)
  | gone (t id : ℕ) (toRemove : List ℕ) (rest : List Frame) (text : String)
      (hstack : s.fibers t = .sweep (id :: toRemove) :: rest)
      (hreq : s.reqs.lookup id = none) (hreqs : s'.reqs = s.reqs) (hissued : s'.issued = s.issued)
      (hlog : s'.log = s.log ++ [.error text]) : Effect timeout s s' (t, .next)
  | raise (t : ℕ) (hs : s' = s.unwind t) : Effect timeout s s' (t, .raise)
  | tick (t : ℕ) (toRemove : List ℕ) (hperm : toRemove.Perm (s.due.map Prod.fst))
      (hreqs : s'.reqs = s.reqs.map (fun entry => (entry.1, entry.2.wait)))
      (hissued : s'.issued = s.issued)
      (hlog : s'.log = s.log ++ s.due.map (fun entry => .expired entry.2.cb))
      (hlisted : ∀ id, s'.Listed id ↔ s.Listed id ∨ id ∈ toRemove) :
      Effect timeout s s' (t, .tick toRemove)

section Listed

variable {s s' : State} {t id : ℕ} {stack rest : List Frame}

/-- The ids of a stack that sweeps have still to process. -/
def Lists (stack : List Frame) (id : ℕ) : Prop :=
  ∃ toRemove, .sweep toRemove ∈ stack ∧ id ∈ toRemove

/-- A sweep that has still to process an id is on some stack. -/
theorem listed_iff : s.Listed id ↔ ∃ t, Lists (s.fibers t) id := Iff.rfl

/-- An empty stack has no sweep. -/
@[simp] theorem lists_nil : ¬ Lists [] id := by
  rintro ⟨toRemove, h, -⟩
  cases h

/-- A sweep lists what it has still to remove. -/
@[simp] theorem lists_sweep {toRemove : List ℕ} :
    Lists (.sweep toRemove :: rest) id ↔ id ∈ toRemove ∨ Lists rest id := by
  simp [Lists, or_and_right, exists_or]

/-- Script code lists nothing itself. -/
@[simp] theorem lists_script : Lists (.script :: rest) id ↔ Lists rest id := by simp [Lists]

/-- Nor does a `pcall`. -/
@[simp] theorem lists_pcall : Lists (.pcall :: rest) id ↔ Lists rest id := by simp [Lists]

/-- A stack takes the place of another. -/
theorem listed_setFiber : (s.setFiber t stack).Listed id ↔
    Lists stack id ∨ ∃ t', t' ≠ t ∧ Lists (s.fibers t') id := by
  rw [listed_iff]
  constructor
  · rintro ⟨t', h⟩
    by_cases ht : t' = t
    · subst ht
      exact .inl (by simpa [State.setFiber] using h)
    · exact .inr ⟨t', ht, by simpa [State.setFiber, ht] using h⟩
  · rintro (h | ⟨t', ht, h⟩)
    · exact ⟨t, by simpa [State.setFiber] using h⟩
    · exact ⟨t', by simpa [State.setFiber, ht] using h⟩

/-- A stack with the same ids takes the place of another. -/
theorem listed_setFiber_same (h : ∀ id, Lists stack id ↔ Lists (s.fibers t) id) (id : ℕ) :
    (s.setFiber t stack).Listed id ↔ s.Listed id := by
  rw [listed_setFiber, h, listed_iff]
  constructor
  · rintro (h | ⟨t', -, h⟩)
    · exact ⟨t, h⟩
    · exact ⟨t', h⟩
  · rintro ⟨t', h⟩
    by_cases ht : t' = t
    · exact .inl (ht ▸ h)
    · exact .inr ⟨t', ht, h⟩

/-- A stack takes the place of one without ids. -/
theorem listed_setFiber_new (h : ¬ Lists (s.fibers t) id) :
    (s.setFiber t stack).Listed id ↔ s.Listed id ∨ Lists stack id := by
  rw [listed_setFiber, or_comm, listed_iff]
  apply or_congr_left
  constructor
  · rintro ⟨t', -, h'⟩
    exact ⟨t', h'⟩
  · rintro ⟨t', h'⟩
    refine ⟨t', ?_, h'⟩
    rintro rfl
    exact h h'

end Listed

/-- Every operation of script code has one of the effects. -/
theorem effect_of_script {timeout : ℤ} {s s' : State} {t : ℕ} {rest : List Frame} {op : Op}
    (hstack : s.fibers t = .script :: rest) (hscript : s.script t timeout rest op = some s') :
    Effect timeout s s' (t, op) := by
  cases op with
  | request =>
    obtain rfl := Option.some.inj hscript
    exact .request t rfl rfl rfl (listed_setFiber_same (by simp [State.note]))
  | responce id =>
    obtain rfl := Option.some.inj hscript
    unfold State.responce
    split
    · next id' req hfound =>
      obtain ⟨id, rfl, hentry⟩ := Option.bind_eq_some_iff.mp hfound
      obtain ⟨req', hreq, hpair⟩ := Option.map_eq_some_iff.mp hentry
      cases hpair
      refine .responce t id' req hreq rfl rfl rfl fun id₀ => ?_
      have hcall : ((s.push t .pcall).complete t id' req (.msg id')).Listed id₀ ↔
          (s.push t .pcall).Listed id₀ := listed_setFiber_same (by simp [State.note]) id₀
      exact hcall.trans (listed_setFiber_same (by simp) id₀)
    · next hnone =>
      refine .unknown t id _ (fun id₀ hid => ?_) rfl rfl rfl (fun _ => Iff.rfl)
      obtain rfl := Option.mem_def.mp hid
      simpa using hnone
  | pcall =>
    obtain rfl := Option.some.inj hscript
    refine .quiet trivial rfl (Nat.le_refl _) rfl fun id => ?_
    have hcall : ((s.push t .pcall).push t .script).Listed id ↔ (s.push t .pcall).Listed id :=
      listed_setFiber_same (by simp) id
    exact hcall.trans (listed_setFiber_same (by simp) id)
  | ret =>
    obtain rfl := Option.some.inj hscript
    exact .quiet trivial rfl (Nat.le_refl _) rfl (listed_setFiber_same (by simp [hstack]))
  | raise =>
    obtain rfl := Option.some.inj hscript
    exact .raise t rfl
  | start | next_id | next | tick => cases hscript

/-- Every step has one of these effects. -/
theorem effect_of_step {timeout : ℤ} {s s' : State} {a : ℕ × Op}
    (hstep : step timeout s a = some s') : Effect timeout s s' a := by
  obtain ⟨t, op⟩ := a
  cases op with
  | start =>
    obtain ⟨hidle, rfl⟩ := of_guarded hstep
    exact .quiet trivial rfl (Nat.le_refl _) rfl (listed_setFiber_same (by simp [hidle]))
  | next_id =>
    obtain rfl := Option.some.inj hstep
    exact .quiet trivial rfl (Nat.le_succ _) rfl (fun _ => Iff.rfl)
  | next =>
    simp only [step, State.next] at hstep
    split at hstep
    · next id toRemove rest hstack =>
      split at hstep
      · next req hreq =>
        obtain rfl := Option.some.inj hstep
        exact .expire t id toRemove rest req hstack hreq rfl rfl rfl
          (listed_setFiber_same (by simp [State.note, State.setFiber]))
      · next hreq =>
        obtain rfl := Option.some.inj hstep
        exact .gone t id toRemove rest _ hstack hreq rfl rfl rfl
    · next rest hstack =>
      obtain rfl := Option.some.inj hstep
      exact .quiet (by simp [Quiet, hstack]) rfl (Nat.le_refl _) rfl
        (listed_setFiber_same (by simp [hstack]))
    · next rest hstack =>
      obtain rfl := Option.some.inj hstep
      exact .quiet (by simp [Quiet, hstack]) rfl (Nat.le_refl _) rfl
        (listed_setFiber_same (by simp [hstack]))
    · cases hstep
  | tick toRemove =>
    obtain ⟨⟨hidle, hperm⟩, rfl⟩ := of_guarded hstep
    refine .tick t toRemove hperm rfl rfl rfl fun id => ?_
    have hnew : (s.setFiber t [.sweep toRemove]).Listed id ↔
        s.Listed id ∨ Lists [.sweep toRemove] id := listed_setFiber_new (by simp [hidle])
    exact hnew.trans (by simp)
  | request | responce | pcall | ret | raise =>
    simp only [step] at hstep
    split at hstep
    · next rest hstack => exact effect_of_script hstack hstep
    · cases hstep

/-! ## Invocations -/

/-- The event is an invocation of the callback. -/
def Event.invocation? (k : ℕ) : Event → Option Reply
  | .invoked j r _ => if j = k then some r else none
  | _ => none

/-- What the callback of the request was called with, once for each call. -/
def invocations (log : List Event) (k : ℕ) : List Reply := log.filterMap (Event.invocation? k)

/-- A new event adds its invocation, if it is one of the callback. -/
@[simp] theorem invocations_concat (log : List Event) (e : Event) (k : ℕ) :
    invocations (log ++ [e]) k = invocations log k ++ (e.invocation? k).toList := by
  cases h : e.invocation? k <;> simp [invocations, h]

/-- What the callback was called with stands in the log, with the tick of the call. -/
theorem mem_invocations {log : List Event} {k : ℕ} {r : Reply} :
    r ∈ invocations log k ↔ ∃ n, .invoked k r n ∈ log := by
  rw [invocations, List.mem_filterMap]
  constructor
  · rintro ⟨e, hmem, he⟩
    cases e with
    | invoked j r' n =>
      obtain ⟨rfl, rfl⟩ := of_guarded he
      exact ⟨n, hmem⟩
    | requested | expired | warn | error => cases he
  · rintro ⟨n, hmem⟩
    exact ⟨_, hmem, by simp [Event.invocation?]⟩

/-- The request waits for a response. -/
def State.Pending (s : State) (k : ℕ) : Prop :=
  ∃ req, s.reqs.lookup (idOf k) = some req ∧ req.cb = k

/-- The callback of the request is invoked at most once, with the timeout error or with a message
that has the id of the request. No other request that was sent less than `2 ^ 32` ids before the
message came has this id. -/
structure InvokedOnce (s : State) (k : ℕ) : Prop where
  once : (invocations s.log k).length ≤ 1
  own : ∀ r n, .invoked k r n ∈ s.log → r = timeoutError ∨ ∃ id, r = .msg id ∧ id = idOf k ∧
    ∀ m, .requested m ∈ s.log → idOf m = id → m < n → n ≤ m + 2 ^ 32 → m = k

/-- The table has the latest request with each id, as long as its callback has not been invoked. -/
structure Tracked (s : State) : Prop where
  entry : ∀ id req, s.reqs.lookup id = some req →
    idOf req.cb = id ∧ .requested req.cb ∈ s.log ∧ invocations s.log req.cb = []
  latest : ∀ id req, s.reqs.lookup id = some req → ∀ m, .requested m ∈ s.log → idOf m = id →
    m ≤ req.cb
  issued : ∀ m, .requested m ∈ s.log → m < s.issued
  called : ∀ k r n, .invoked k r n ∈ s.log → .requested k ∈ s.log ∧ n ≤ s.issued
  once : ∀ k, InvokedOnce s k

section Tracked

variable {timeout : ℤ} {s s' : State} {a : ℕ × Op}

/-- At first the table is empty. -/
theorem init_tracked (issued : ℕ) : Tracked (init issued) where
  entry _ _ h := by cases h
  latest _ _ h := by cases h
  issued _ h := by cases h
  called _ _ _ h := by cases h
  once _ := ⟨Nat.zero_le _, fun _ _ h => by cases h⟩

/-- The events are neither requests nor invocations. -/
def Neutral (events : List Event) : Prop :=
  ∀ e ∈ events, (∀ m, e ≠ .requested m) ∧ ∀ k r n, e ≠ .invoked k r n

/-- Events that invoke nothing add nothing. -/
theorem invocations_neutral {log events : List Event} (h : Neutral events) (k : ℕ) :
    invocations (log ++ events) k = invocations log k := by
  have hnil : events.filterMap (Event.invocation? k) = [] := by
    rw [List.filterMap_eq_nil_iff]
    intro e he
    cases e with
    | invoked j r n => exact absurd rfl ((h _ he).2 j r n)
    | requested | expired | warn | error => rfl
  rw [invocations, List.filterMap_append, hnil, List.append_nil, invocations]

/-- A step that neither sends a request nor invokes a callback. -/
theorem Tracked.neutral (h : Tracked s) {events : List Event}
    (hreqs : ∀ id, (s'.reqs.lookup id).map Request.cb = (s.reqs.lookup id).map Request.cb)
    (hissued : s.issued ≤ s'.issued) (hlog : s'.log = s.log ++ events) (hevents : Neutral events) :
    Tracked s' := by
  have hrequested : ∀ m, .requested m ∈ s'.log ↔ .requested m ∈ s.log := by
    intro m
    rw [hlog, List.mem_append, or_iff_left]
    exact fun hmem => (hevents _ hmem).1 m rfl
  have hinvoked : ∀ k r n, .invoked k r n ∈ s'.log ↔ .invoked k r n ∈ s.log := by
    intro k r n
    rw [hlog, List.mem_append, or_iff_left]
    exact fun hmem => (hevents _ hmem).2 k r n rfl
  have hlookup : ∀ id req, s'.reqs.lookup id = some req →
      ∃ old, s.reqs.lookup id = some old ∧ old.cb = req.cb := by
    intro id req hreq
    have := hreqs id
    rw [hreq, Option.map_some, eq_comm, Option.map_eq_some_iff] at this
    exact this
  refine ⟨fun id req hreq => ?_, fun id req hreq => ?_, fun m hm => ?_, fun k r n hmem => ?_,
    fun k => ⟨?_, fun r n hmem => ?_⟩⟩
  · obtain ⟨old, hold, hcb⟩ := hlookup id req hreq
    rw [← hcb, hrequested, hlog, invocations_neutral hevents]
    exact h.entry id old hold
  · obtain ⟨old, hold, hcb⟩ := hlookup id req hreq
    intro m hm
    rw [← hcb]
    exact h.latest id old hold m ((hrequested m).mp hm)
  · exact Nat.lt_of_lt_of_le (h.issued m ((hrequested m).mp hm)) hissued
  · obtain ⟨hk, hn⟩ := h.called k r n ((hinvoked k r n).mp hmem)
    exact ⟨(hrequested k).mpr hk, Nat.le_trans hn hissued⟩
  · rw [hlog, invocations_neutral hevents]
    exact (h.once k).once
  · rcases (h.once k).own r n ((hinvoked k r n).mp hmem) with hr | ⟨id, hr, hid, hother⟩
    · exact .inl hr
    · exact .inr ⟨id, hr, hid, fun m hm => hother m ((hrequested m).mp hm)⟩

/-- A request is sent. -/
theorem Tracked.request (h : Tracked s)
    (hreqs : s'.reqs = Assoc.put (idOf s.issued) ⟨timeout, s.issued⟩ s.reqs)
    (hissued : s'.issued = s.issued + 1) (hlog : s'.log = s.log ++ [.requested s.issued]) :
    Tracked s' := by
  have hrequested : ∀ m, .requested m ∈ s'.log ↔ .requested m ∈ s.log ∨ m = s.issued := by
    intro m
    simp [hlog]
  have hinvoked : ∀ k r n, .invoked k r n ∈ s'.log ↔ .invoked k r n ∈ s.log := by
    intro k r n
    simp [hlog]
  have hinvocations : ∀ k, invocations s'.log k = invocations s.log k := by
    intro k
    simp [hlog, Event.invocation?]
  have hnew : invocations s.log s.issued = [] := by
    rw [List.eq_nil_iff_forall_not_mem]
    intro r hr
    obtain ⟨n, hmem⟩ := mem_invocations.mp hr
    exact Nat.lt_irrefl _ (h.issued _ (h.called _ r n hmem).1)
  refine ⟨fun id req hreq => ?_, fun id req hreq m hm hid => ?_, fun m hm => ?_,
    fun k r n hmem => ?_, fun k => ⟨?_, fun r n hmem => ?_⟩⟩
  · rw [hrequested, hinvocations]
    rw [hreqs] at hreq
    rcases Assoc.of_lookup_put hreq with ⟨hid, rfl⟩ | ⟨-, hold⟩
    · exact ⟨hid.symm, .inr rfl, hnew⟩
    · obtain ⟨hown, hsent, hcalled⟩ := h.entry id req hold
      exact ⟨hown, .inl hsent, hcalled⟩
  · rw [hreqs] at hreq
    rcases Assoc.of_lookup_put hreq with ⟨-, rfl⟩ | ⟨hnewId, hold⟩
    · rcases (hrequested m).mp hm with hm | rfl
      · exact Nat.le_of_lt (h.issued m hm)
      · exact Nat.le_refl _
    · rcases (hrequested m).mp hm with hm | rfl
      · exact h.latest id req hold m hm hid
      · exact absurd hid.symm hnewId
  · rw [hissued]
    rcases (hrequested m).mp hm with hm | rfl
    · exact Nat.lt_succ_of_lt (h.issued m hm)
    · exact Nat.lt_succ_self _
  · obtain ⟨hk, hn⟩ := h.called k r n ((hinvoked k r n).mp hmem)
    exact ⟨(hrequested k).mpr (.inl hk), by omega⟩
  · rw [hinvocations]
    exact (h.once k).once
  · have hmem := (hinvoked k r n).mp hmem
    rcases (h.once k).own r n hmem with hr | ⟨id, hr, hid, hother⟩
    · exact .inl hr
    · refine .inr ⟨id, hr, hid, fun m hm => ?_⟩
      rcases (hrequested m).mp hm with hm | rfl
      · exact hother m hm
      · have hn := (h.called k r n hmem).2
        omega

/-- Less than `2 ^ 32` numbers apart, only one has an id. -/
theorem eq_of_idOf_eq {m k : ℕ} (hid : idOf m = idOf k) (hle : m ≤ k) (hlt : k < m + 2 ^ 32) :
    m = k := by
  unfold idOf at hid
  omega

/-- A callback is invoked. -/
theorem Tracked.complete (h : Tracked s) {id : ℕ} {req : Request} {r : Reply}
    (hreq : s.reqs.lookup id = some req) (hr : r = timeoutError ∨ r = .msg id)
    (hreqs : s'.reqs = Assoc.erase id s.reqs) (hissued : s'.issued = s.issued)
    (hlog : s'.log = s.log ++ [.invoked req.cb r s.issued]) : Tracked s' := by
  obtain ⟨hown, hsent, hcalled⟩ := h.entry id req hreq
  have hrequested : ∀ m, .requested m ∈ s'.log ↔ .requested m ∈ s.log := by
    intro m
    simp [hlog]
  have hlookup : ∀ id' req', s'.reqs.lookup id' = some req' →
      id' ≠ id ∧ s.reqs.lookup id' = some req' := by
    intro id' req' hreq'
    have hne : id' ≠ id := by
      rintro rfl
      rw [hreqs, Assoc.lookup_erase_self] at hreq'
      cases hreq'
    exact ⟨hne, by rwa [hreqs, Assoc.lookup_erase_ne hne] at hreq'⟩
  have hother : ∀ k, k ≠ req.cb → invocations s'.log k = invocations s.log k := by
    intro k hk
    simp [hlog, Event.invocation?, Ne.symm hk]
  refine ⟨fun id' req' hreq' => ?_, fun id' req' hreq' m hm => ?_, fun m hm => ?_,
    fun k r' n hmem => ?_, fun k => ⟨?_, fun r' n hmem => ?_⟩⟩
  · obtain ⟨hne, hreq'⟩ := hlookup id' req' hreq'
    obtain ⟨hown', hsent', hcalled'⟩ := h.entry id' req' hreq'
    have hcb : req'.cb ≠ req.cb := by
      intro heq
      rw [heq] at hown'
      exact hne (hown'.symm.trans hown)
    exact ⟨hown', (hrequested _).mpr hsent', (hother _ hcb).trans hcalled'⟩
  · obtain ⟨-, hreq'⟩ := hlookup id' req' hreq'
    exact h.latest id' req' hreq' m ((hrequested m).mp hm)
  · rw [hissued]
    exact h.issued m ((hrequested m).mp hm)
  · rw [hissued, hrequested]
    rcases (by simpa [hlog] using hmem : .invoked k r' n ∈ s.log ∨
      k = req.cb ∧ r' = r ∧ n = s.issued) with hmem | ⟨rfl, -, rfl⟩
    · exact h.called k r' n hmem
    · exact ⟨hsent, Nat.le_refl _⟩
  · by_cases hk : k = req.cb
    · subst hk
      simp [hlog, hcalled, Event.invocation?]
    · rw [hother k hk]
      exact (h.once k).once
  · rcases (by simpa [hlog] using hmem : .invoked k r' n ∈ s.log ∨
      k = req.cb ∧ r' = r ∧ n = s.issued) with hmem | ⟨rfl, rfl, rfl⟩
    · rcases (h.once k).own r' n hmem with hr' | ⟨id', hr', hid', hothers⟩
      · exact .inl hr'
      · exact .inr ⟨id', hr', hid', fun m hm => hothers m ((hrequested m).mp hm)⟩
    · rcases hr with hr | hr
      · exact .inl hr
      · refine .inr ⟨id, hr, hown.symm, fun m hm hid _ hlt => ?_⟩
        have hm := (hrequested m).mp hm
        have hk := h.issued _ hsent
        exact eq_of_idOf_eq (hid.trans hown.symm) (h.latest id req hreq m hm hid) (by omega)

/-- Every step keeps the table in agreement with the log. -/
theorem Tracked.step (h : Tracked s) (hstep : step timeout s a = some s') : Tracked s' := by
  have hneutral : ∀ e, (∀ m, e ≠ .requested m) → (∀ k r n, e ≠ .invoked k r n) →
      Neutral [e] := by
    intro e hrequested hinvoked e' he'
    obtain rfl := List.mem_singleton.mp he'
    exact ⟨hrequested, hinvoked⟩
  cases effect_of_step hstep with
  | quiet _ hreqs hissued hlog _ =>
    have hnil : s'.log = s.log ++ [] := by rw [hlog, List.append_nil]
    exact h.neutral (by simp [hreqs]) hissued hnil (by simp [Neutral])
  | request t hreqs hissued hlog _ => exact h.request hreqs hissued hlog
  | responce t id req hreq hreqs hissued hlog _ =>
    exact h.complete hreq (.inr rfl) hreqs hissued hlog
  | unknown t id text _ hreqs hissued hlog _ =>
    exact h.neutral (by simp [hreqs]) (Nat.le_of_eq hissued.symm) hlog
      (hneutral _ (by simp) (by simp))
  | expire t id toRemove rest req _ hreq hreqs hissued hlog _ =>
    exact h.complete hreq (.inl rfl) hreqs hissued hlog
  | gone t id toRemove rest text _ _ hreqs hissued hlog =>
    exact h.neutral (by simp [hreqs]) (Nat.le_of_eq hissued.symm) hlog
      (hneutral _ (by simp) (by simp))
  | raise t hs =>
    subst hs
    exact h.neutral (fun _ => rfl) (Nat.le_refl _) (List.append_nil _).symm (by simp [Neutral])
  | tick t toRemove _ hreqs hissued hlog _ =>
    refine h.neutral (fun id => ?_) (Nat.le_of_eq hissued.symm) hlog ?_
    · rw [hreqs, Assoc.lookup_map]
      cases s.reqs.lookup id with
      | none => rfl
      | some req =>
        have hcb : req.wait.cb = req.cb := by
          unfold Request.wait
          split <;> rfl
        simp [hcb]
    · intro e he
      obtain ⟨entry, -, rfl⟩ := List.mem_map.mp he
      simp

end Tracked

/-- Along every run of a service, the callback of every request is invoked at most once, with a
response that has its own id or with the timeout error. -/
theorem invokedOnce_of_run {timeout : ℤ} {issued : ℕ} {actions : List (ℕ × Op)} {s : State}
    (hrun : run (step timeout) (init issued) actions = some s) (k : ℕ) : InvokedOnce s k :=
  (run_invariant_of_step (fun h hstep => Tracked.step h hstep) (init_tracked issued) hrun).once k

/-- Two requests wait; the counter wraps between their ids. The second one gets its response, from
inside its callback the first one gets its own, and both responses come again. -/
def duplicates : List (ℕ × Op) :=
  [(0, .start), (0, .request), (0, .ret), (0, .request), (0, .ret), (0, .responce (some 0)),
    (0, .responce (some (2 ^ 32 - 1))), (0, .responce (some 0)), (1, .tick []),
    (0, .responce (some (2 ^ 32 - 1)))]

/-- Responses that come twice, and one from inside a callback: each callback is invoked once. -/
theorem invokedOnce_duplicates :
    ∃ s, run (step 400) (init (2 ^ 32 - 1)) duplicates = some s ∧ ∀ k, InvokedOnce s k := by
  obtain ⟨s, hrun⟩ : ∃ s, run (step 400) (init (2 ^ 32 - 1)) duplicates = some s := ⟨_, rfl⟩
  exact ⟨s, hrun, fun k => invokedOnce_of_run hrun k⟩

end Radapter.Service
