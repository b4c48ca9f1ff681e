import Radapter.Pipes.Chain
import Mathlib.Data.List.Range

/-!
# What stands in a table of listeners

However calls of `pipe` and of the functions that it returns are interleaved, a table holds the
listeners of the connections out of its worker whose pipe has not been cancelled, in the order the
connections were made in. A cancellation takes out the listeners of its own pipe and nothing else,
and doing it again changes nothing.

A call of `pipe` is summed up by the connections that it makes, whether it raises an error or not:
each worker of its chain is connected to the next one, as far as the call gets. Their listeners are
closures that did not exist before, which is why it does not matter that many pipes share a table.
-/

namespace Radapter.Pipes

open Library

variable (members : ℕ → Member)

/-- What a call of `pipe` with these arguments adds to the log: each worker of its chain is
connected to the next one, in order. A call that raises an error has come to a part of them. -/
structure Connects (args : List Value) (s t : State) (links : List Connection) : Prop where
  log : t.log = s.log ++ links.map .connected
  own : ∀ c ∈ links, c.pipe = s.cancels.length
  ended : ∃ result, t.cancels = s.cancels ++ [result]
  along : links.map Connection.ends <+: adjacent (workersOf members s.wrappers args)
  returned : (∃ subs, t.cancels = s.cancels ++ [some subs]) →
    links.map Connection.ends = adjacent (workersOf members s.wrappers args)

/-- The tables hold what the log of the connections and cancellations says, a call of `pipe`
connects along its chain, and a cancellation removes the listeners of its own pipe, once. -/
structure Listening (s : State) : Prop where
  lists : ∀ worker all, memberOf members worker = .table all →
    s.listeners all = ((live s.log).filter (LeadsOut members all)).map Connection.listener
  pipe : ∀ args, ∃ t links, step members s (.pipe args) = some t ∧
    Connects members args s t links
  cancel : ∀ p subs, s.cancels[p]? = some (some subs) →
    ∃ t, step members s (.cancel p) = some t ∧ t.log = s.log ++ [.cancelled p] ∧
      (∀ all, t.listeners all = (s.listeners all).filter
        (fun fn => ∀ c ∈ made s.log, c.listener = fn → c.pipe ≠ p)) ∧
      ∃ u, step members t (.cancel p) = some u ∧ u.listeners = t.listeners

/-! ## What a call of pipe does -/

/-- The state `t` is `s` with some connections made by the running call of `pipe`. -/
structure Made (s t : State) (links : List Connection) : Prop where
  listeners : ∀ all, t.listeners all =
    s.listeners all ++ (links.filter (LeadsOut members all)).map Connection.listener
  log : t.log = s.log ++ links.map .connected
  closures : t.closures = s.closures + links.length
  fresh : links.map Connection.listener = List.range' s.closures links.length
  own : ∀ c ∈ links, c.pipe = s.cancels.length
  table : ∀ c ∈ links, ∃ all, LeadsOut members all c
  cancels : t.cancels = s.cancels
  wrappers : s.wrappers ≤ t.wrappers

namespace Made

variable {members} {s t u : State} {links more : List Connection}

/-- Nothing has been connected, but anonymous workers may have been made. -/
theorem nothing {n : ℕ} (hn : s.wrappers ≤ n) : Made members s { s with wrappers := n } [] where
  listeners all := by simp
  log := by simp
  closures := rfl
  fresh := rfl
  own c hc := by cases hc
  table c hc := by cases hc
  cancels := rfl
  wrappers := hn

/-- Connections are made one after the other. -/
theorem trans (hst : Made members s t links) (htu : Made members t u more) :
    Made members s u (links ++ more) where
  listeners all := by
    rw [htu.listeners, hst.listeners, List.filter_append, List.map_append, List.append_assoc]
  log := by rw [htu.log, hst.log, List.map_append, List.append_assoc]
  closures := by rw [htu.closures, hst.closures, List.length_append, Nat.add_assoc]
  fresh := by
    rw [List.map_append, hst.fresh, htu.fresh, hst.closures, List.length_append]
    exact List.range'_append_1
  own c hc := by
    rcases List.mem_append.mp hc with hc | hc
    · exact hst.own c hc
    · rw [htu.own c hc, hst.cancels]
  table c hc := by
    rcases List.mem_append.mp hc with hc | hc
    · exact hst.table c hc
    · exact htu.table c hc
  cancels := htu.cancels.trans hst.cancels
  wrappers := Nat.le_trans hst.wrappers htu.wrappers

/-- The log has them in order. -/
theorem made_log (h : Made members s t links) : Pipes.made t.log = Pipes.made s.log ++ links := by
  rw [h.log, made_append, made_connected]

/-- Nothing is cancelled meanwhile. -/
theorem cancelled_log (h : Made members s t links) :
    Pipes.cancelled t.log = Pipes.cancelled s.log := by
  rw [h.log, cancelled_append, cancelled_connected, List.append_nil]

/-- They are all of the running call. -/
theorem filter_self (h : Made members s t links) :
    links.filter (fun c => c.pipe = s.cancels.length) = links := by
  rw [List.filter_eq_self]
  intro c hc
  rw [decide_eq_true_eq, h.own c hc]

/-- None is of another call. -/
theorem filter_ne (h : Made members s t links) {p : ℕ} (hp : p ≠ s.cancels.length) :
    links.filter (fun c => c.pipe = p) = [] := by
  rw [List.filter_eq_nil_iff]
  intro c hc
  rw [decide_eq_true_eq, h.own c hc]
  exact hp.symm

end Made

variable {members} {s t : State}

/-- What an argument stands for: a new anonymous worker, or the object itself. -/
theorem toWorker_cases {i : ℕ} {v : Value} {o : Object}
    (h : toWorker members i v s = .ok (o, t)) :
    ((v = .function ∨ ∃ p, v = .object p ∧ memberOf members p = .absent) ∧
      wrap_func s = (o, t)) ∨
    (v = .object o ∧ t = s ∧
      (memberOf members o = .other ∨ ∃ all, memberOf members o = .table all)) := by
  cases v with
  | function => exact .inl ⟨.inl rfl, Except.ok.inj h⟩
  | nil | scalar => cases h
  | object p =>
    simp only [toWorker] at h
    cases hp : memberOf members p with
    | absent =>
      simp only [hp] at h
      exact .inl ⟨.inr ⟨p, rfl, hp⟩, Except.ok.inj h⟩
    | refuses | raises err =>
      simp only [hp] at h
      cases h
    | table all =>
      simp only [hp] at h
      cases h
      exact .inr ⟨rfl, rfl, .inr ⟨all, hp⟩⟩
    | other =>
      simp only [hp] at h
      cases h
      exact .inr ⟨rfl, rfl, .inl hp⟩

/-- An argument is turned into a worker without connecting anything. -/
theorem made_of_toWorker {i : ℕ} {v : Value} {o : Object}
    (h : toWorker members i v s = .ok (o, t)) : Made members s t [] := by
  rcases toWorker_cases h with ⟨-, hwrap⟩ | ⟨-, rfl, -⟩
  · cases hwrap
    exact .nothing (Nat.le_succ _)
  · exact .nothing (Nat.le_refl _)

/-- `connect` succeeds on a worker that has a table, and makes one connection. -/
theorem connect_cases {source ipipe : Object} {fn : ℕ}
    (h : connect members s source ipipe = .ok (fn, t)) :
    (∃ all, memberOf members source = .table all) ∧ fn = s.closures ∧
      Made members s t [⟨s.cancels.length, source, ipipe, s.closures⟩] := by
  unfold connect at h
  cases hall : memberOf members source with
  | absent | refuses | other | raises err =>
    simp only [hall] at h
    cases h
  | table all =>
    simp only [hall, Except.ok.injEq, Prod.mk.injEq] at h
    obtain ⟨rfl, rfl⟩ := h
    have hout : ∀ other, LeadsOut members other ⟨s.cancels.length, source, ipipe, s.closures⟩ ↔
        other = all := by
      intro other
      rw [LeadsOut, hall, Member.table.injEq, eq_comm]
    refine ⟨⟨all, rfl⟩, rfl, ?_, rfl, rfl, rfl, ?_, ?_, rfl, Nat.le_refl _⟩
    · intro other
      by_cases hother : other = all
      · subst hother
        simp [hout]
      · simp [hout, hother]
    · intro c hc
      rw [List.mem_singleton.mp hc]
    · intro c hc
      rw [List.mem_singleton.mp hc]
      exact ⟨all, hall⟩

/-- A connection is made between workers that are there. -/
theorem connect_wrappers {source ipipe : Object} {fn : ℕ}
    (h : connect members s source ipipe = .ok (fn, t)) : t.wrappers = s.wrappers := by
  unfold connect at h
  cases hall : memberOf members source with
  | absent | refuses | other | raises err =>
    simp only [hall] at h
    cases h
  | table all =>
    simp only [hall, Except.ok.injEq, Prod.mk.injEq] at h
    obtain ⟨-, rfl⟩ := h
    rfl

/-- The argument that comes next is the next worker of the chain. -/
theorem workersOf_toWorker {i : ℕ} {v : Value} {o : Object}
    (h : toWorker members i v s = .ok (o, t)) (rest : List Value) :
    workersOf members s.wrappers (v :: rest) = o :: workersOf members t.wrappers rest := by
  rcases toWorker_cases h with ⟨rfl | ⟨p, rfl, hp⟩, hwrap⟩ | ⟨rfl, rfl, hother | ⟨all, hall⟩⟩
  · cases hwrap
    rfl
  · cases hwrap
    rw [workersOf, if_pos hp]
  · rw [workersOf, if_neg (by simp [hother])]
  · rw [workersOf, if_neg (by simp [hall])]

/-- What a call of `pipe` has in `subs` for its connections. -/
def subsOf (links : List Connection) : List Sub := links.map (fun c => ⟨c.source, c.listener⟩)

variable (members) in
/-- The loop of `pipe` makes connections along the chain from `curr` on and puts them into `subs`,
up to an error. -/
theorem made_of_chain (i : ℕ) (args : List Value) (l : Locals) (s : State) :
    ∃ links, Made members s (chain members i args l s).2 links ∧
      links.map Connection.ends <+:
        adjacent (l.curr.toList ++ workersOf members s.wrappers args) ∧
      ∀ l', (chain members i args l s).1 = .ok l' → l'.subs = l.subs ++ subsOf links ∧
        links.map Connection.ends =
          adjacent (l.curr.toList ++ workersOf members s.wrappers args) := by
  have hend : ∀ (l : Locals) (s : State), ∃ links, Made members s s links ∧
      links.map Connection.ends <+: adjacent (l.curr.toList ++ []) ∧
      ∀ l', (.ok l : Except String Locals) = .ok l' → l'.subs = l.subs ++ subsOf links ∧
        links.map Connection.ends = adjacent (l.curr.toList ++ []) := by
    intro l s
    have hnone : adjacent (l.curr.toList ++ []) = [] := by
      cases l.curr <;> rfl
    refine ⟨[], .nothing (Nat.le_refl _), List.nil_prefix, ?_⟩
    rintro l' ⟨⟩
    rw [subsOf, List.map_nil, List.append_nil, hnone]
    exact ⟨rfl, rfl⟩
  fun_induction chain members i args l s with
  | case1 i l s => exact hend l s
  | case2 i rest l s => exact hend l s
  | case3 i v rest l s hv err hworker =>
    exact ⟨[], .nothing (Nat.le_refl _), List.nil_prefix, fun l' hl => by cases hl⟩
  | case4 i v rest l s hv o s' hworker hcurr ih =>
    obtain ⟨links, hmade, hprefix, hdone⟩ := ih
    have hworkers := workersOf_toWorker hworker rest
    rw [hcurr, hworkers]
    exact ⟨links, (made_of_toWorker hworker).trans hmade, hprefix, hdone⟩
  | case5 i v rest l s hv o s' hworker curr hcurr err hconnect =>
    exact ⟨[], made_of_toWorker hworker, List.nil_prefix, fun l' hl => by cases hl⟩
  | case6 i v rest l s hv o s' hworker curr hcurr fn s'' hconnect ih =>
    obtain ⟨links, hmade, hprefix, hdone⟩ := ih
    have hwrappers := connect_wrappers hconnect
    obtain ⟨-, rfl, hlink⟩ := connect_cases hconnect
    have hworkers : l.curr.toList ++ workersOf members s.wrappers (v :: rest) =
        curr :: o :: workersOf members s''.wrappers rest := by
      rw [hcurr, workersOf_toWorker hworker, hwrappers]
      rfl
    rw [hworkers, adjacent_cons_cons]
    refine ⟨_, ((made_of_toWorker hworker).trans hlink).trans hmade, ?_, ?_⟩
    · exact List.cons_prefix_cons.mpr ⟨rfl, hprefix⟩
    · intro l' hl
      obtain ⟨hsubs, halong⟩ := hdone l' hl
      rw [hsubs, List.append_assoc]
      exact ⟨rfl, congrArg ((curr, o) :: ·) halong⟩

variable (members) in
/-- A call of `pipe` makes connections along its chain, and the function that it returns has them
in `subs`. -/
theorem made_of_pipe (s : State) (args : List Value) :
    ∃ links, Made members s (pipe members s args).2 links ∧
      links.map Connection.ends <+: adjacent (workersOf members s.wrappers args) ∧
      ∀ subs, (pipe members s args).1 = .ok subs → subs = subsOf links ∧
        links.map Connection.ends = adjacent (workersOf members s.wrappers args) := by
  unfold pipe
  split
  · exact ⟨[], .nothing (Nat.le_refl _), List.nil_prefix, fun subs hsubs => by cases hsubs⟩
  · obtain ⟨links, hmade, hprefix, hdone⟩ := made_of_chain members 1 args ⟨none, none, []⟩ s
    rcases hchain : chain members 1 args ⟨none, none, []⟩ s with ⟨err | l, t⟩
    all_goals
      rw [hchain] at hmade hdone
    · exact ⟨links, hmade, hprefix, fun subs hsubs => by cases hsubs⟩
    · obtain ⟨hl, halong⟩ := hdone l rfl
      by_cases hres : l.res = none
      · simp only [hres, if_true]
        exact ⟨links, hmade, hprefix, fun subs hsubs => by cases hsubs⟩
      · simp only [hres, if_false]
        refine ⟨links, hmade, hprefix, ?_⟩
        rintro subs ⟨⟩
        exact ⟨hl, halong⟩

variable (members) in
/-- What the step of a call of `pipe` connects. -/
theorem connects_of_pipe (s : State) (args : List Value) :
    ∃ t links, step members s (.pipe args) = some t ∧ Connects members args s t links := by
  obtain ⟨links, hmade, hprefix, hdone⟩ := made_of_pipe members s args
  simp only [step]
  rcases hpipe : pipe members s args with ⟨err | subs, u⟩
  all_goals
    rw [hpipe] at hmade hdone
    have hcancels : u.cancels = s.cancels := hmade.cancels
    refine ⟨_, links, rfl, hmade.log, hmade.own, ⟨_, by rw [← hcancels]⟩, hprefix, ?_⟩
  · rintro ⟨subs, hsubs⟩
    rw [hcancels] at hsubs
    cases List.append_cancel_left hsubs
  · exact fun _ => (hdone subs rfl).2

/-! ## What a cancellation does -/

/-- The loop of `cancel` takes the listeners of `subs` out of their tables. -/
theorem cancel_eq {subs : List Sub} {s : State}
    (htable : ∀ sub ∈ subs, ∃ all, memberOf members sub.target = .table all)
    (hnodup : ∀ all, (s.listeners all).Nodup) :
    ∃ listeners, cancel members subs s = some { s with listeners := listeners } ∧
      ∀ all, listeners all = (s.listeners all).filter
        (fun fn => ∀ sub ∈ subs, memberOf members sub.target = .table all → sub.fn ≠ fn) := by
  induction subs generalizing s with
  | nil => exact ⟨s.listeners, rfl, fun all => by simp⟩
  | cons sub subs ih =>
    obtain ⟨all, hall⟩ := htable sub List.mem_cons_self
    have herase : ∀ other, Function.update s.listeners all
        (Listeners.removeLast (s.listeners all) sub.fn) other =
        (s.listeners other).filter
          (fun fn => memberOf members sub.target = .table other → sub.fn ≠ fn) := by
      intro other
      rw [hall, Listeners.removeLast_eq_erase (hnodup all), (hnodup all).erase_eq_filter]
      by_cases hother : other = all
      · subst hother
        rw [Function.update_self]
        apply List.filter_congr
        intro fn _
        by_cases hfn : fn = sub.fn
        · simp [hfn]
        · simp [hfn, Ne.symm hfn]
      · rw [Function.update_of_ne hother, eq_comm, List.filter_eq_self]
        intro fn _
        have hne : all ≠ other := Ne.symm hother
        simp [hne]
    have hnodup' : ∀ other, (Function.update s.listeners all
        (Listeners.removeLast (s.listeners all) sub.fn) other).Nodup := by
      intro other
      rw [herase]
      exact (hnodup other).filter _
    obtain ⟨listeners, heq, hlisteners⟩ :=
      ih (s := ⟨s.wrappers, Function.update s.listeners all
        (Listeners.removeLast (s.listeners all) sub.fn), s.closures, s.cancels, s.log⟩)
        (fun other hother => htable other (List.mem_cons_of_mem _ hother)) hnodup'
    refine ⟨listeners, ?_, ?_⟩
    · rw [cancel, hall]
      exact heq
    · intro other
      have hstep : listeners other = (Function.update s.listeners all
          (Listeners.removeLast (s.listeners all) sub.fn) other).filter _ := hlisteners other
      rw [hstep, herase, List.filter_filter]
      apply List.filter_congr
      intro fn _
      rw [← Bool.decide_and, decide_eq_decide, List.forall_mem_cons]
      exact and_comm

/-! ## The invariant -/

variable (members) in
/-- The tables hold the listeners of the live connections, and each function returned by `pipe`
knows the connections of its call. -/
structure Wired (s : State) : Prop where
  lists : ∀ all, s.listeners all =
    ((live s.log).filter (LeadsOut members all)).map Connection.listener
  closures : (made s.log).map Connection.listener = List.range s.closures
  table : ∀ c ∈ made s.log, ∃ all, LeadsOut members all c
  pipes : ∀ c ∈ made s.log, c.pipe < s.cancels.length
  subs : ∀ p subs, s.cancels[p]? = some (some subs) →
    subs = subsOf ((made s.log).filter (fun c => c.pipe = p))
  cancelled : ∀ p ∈ cancelled s.log, p < s.cancels.length

namespace Wired

variable (members) in
/-- Without calls the tables are empty. -/
theorem start : Wired members start where
  lists all := rfl
  closures := rfl
  table c hc := by cases hc
  pipes c hc := by cases hc
  subs p subs hp := by cases hp
  cancelled p hp := by cases hp

/-- A listener belongs to one connection. -/
theorem eq_of_listener (hs : Wired members s) {c d : Connection} (hc : c ∈ made s.log)
    (hd : d ∈ made s.log) (h : c.listener = d.listener) : c = d := by
  have hnodup : ((made s.log).map Connection.listener).Nodup := by
    rw [hs.closures]
    exact List.nodup_range
  exact List.inj_on_of_nodup_map hnodup hc hd h

/-- No listener stands twice in a table. -/
theorem nodup (hs : Wired members s) (all : TableId) : (s.listeners all).Nodup := by
  have hnodup : ((made s.log).map Connection.listener).Nodup := by
    rw [hs.closures]
    exact List.nodup_range
  rw [hs.lists, live, List.filter_filter]
  exact hnodup.sublist (List.filter_sublist.map _)

/-- No connection belongs to the pipe that comes next. -/
theorem filter_next (hs : Wired members s) :
    (made s.log).filter (fun c => c.pipe = s.cancels.length) = [] := by
  rw [List.filter_eq_nil_iff]
  intro c hc
  rw [decide_eq_true_eq]
  exact Nat.ne_of_lt (hs.pipes c hc)

/-- The connections that a call of `pipe` makes are live. -/
theorem live_of_made (hs : Wired members s) {links : List Connection}
    (hmade : Made members s t links) : live t.log = live s.log ++ links := by
  rw [live, live, hmade.made_log, hmade.cancelled_log, List.filter_append]
  congr 1
  rw [List.filter_eq_self]
  intro c hc
  rw [decide_eq_true_eq, hmade.own c hc]
  exact fun hmem => absurd (hs.cancelled _ hmem) (Nat.lt_irrefl _)

/-- A call of `pipe` keeps the invariant. -/
theorem of_made (hs : Wired members s) {links : List Connection} (hmade : Made members s t links)
    {result : Option (List Sub)} (hresult : ∀ subs, result = some subs → subs = subsOf links) :
    Wired members { t with cancels := t.cancels ++ [result] } := by
  have hlength : (t.cancels ++ [result]).length = s.cancels.length + 1 := by
    rw [List.length_append, hmade.cancels, List.length_singleton]
  refine ⟨?_, ?_, ?_, ?_, ?_, ?_⟩
  · intro all
    rw [hmade.listeners, hs.lists, hs.live_of_made hmade, List.filter_append, List.map_append]
  · rw [hmade.made_log, List.map_append, hs.closures, hmade.fresh, hmade.closures,
      List.range_eq_range', List.range_eq_range']
    simpa using List.range'_append_1 (s := 0) (m := s.closures) (n := links.length)
  · intro c hc
    rcases List.mem_append.mp (hmade.made_log ▸ hc) with hc | hc
    · exact hs.table c hc
    · exact hmade.table c hc
  · intro c hc
    rw [hlength]
    rcases List.mem_append.mp (hmade.made_log ▸ hc) with hc | hc
    · exact Nat.lt_succ_of_lt (hs.pipes c hc)
    · rw [hmade.own c hc]
      exact Nat.lt_succ_self _
  · intro p subs hp
    rw [hmade.made_log, List.filter_append]
    rw [hmade.cancels, List.getElem?_append] at hp
    split at hp
    · next hlt => rw [hmade.filter_ne (Nat.ne_of_lt hlt), List.append_nil, hs.subs p subs hp]
    · next hge =>
      obtain rfl : p = s.cancels.length := by
        have hlt := (List.getElem?_eq_some_iff.mp hp).1
        rw [List.length_singleton] at hlt
        omega
      rw [Nat.sub_self, List.getElem?_cons_zero] at hp
      rw [hresult subs (Option.some.inj hp), hs.filter_next, hmade.filter_self, List.nil_append]
  · intro p hp
    rw [hlength]
    exact Nat.lt_succ_of_lt (hs.cancelled p (hmade.cancelled_log ▸ hp))

/-- A cancellation takes out the listeners of its own pipe. -/
theorem cancel_step (hs : Wired members s) {p : ℕ} {subs : List Sub}
    (hp : s.cancels[p]? = some (some subs)) :
    ∃ listeners, step members s (.cancel p) =
        some { s with listeners := listeners, log := s.log ++ [.cancelled p] } ∧
      ∀ all, listeners all = (((live s.log).filter (LeadsOut members all)).filter
        (fun c => c.pipe ≠ p)).map Connection.listener := by
  have hsubs := hs.subs p subs hp
  have hmem : ∀ sub ∈ subs, ∃ c ∈ made s.log, c.pipe = p ∧ sub = ⟨c.source, c.listener⟩ := by
    intro sub hsub
    rw [hsubs, subsOf] at hsub
    obtain ⟨c, hc, rfl⟩ := List.mem_map.mp hsub
    obtain ⟨hc, hpipe⟩ := List.mem_filter.mp hc
    exact ⟨c, hc, of_decide_eq_true hpipe, rfl⟩
  have htable : ∀ sub ∈ subs, ∃ all, memberOf members sub.target = .table all := by
    intro sub hsub
    obtain ⟨c, hc, -, rfl⟩ := hmem sub hsub
    exact hs.table c hc
  obtain ⟨listeners, heq, hlisteners⟩ := cancel_eq htable hs.nodup
  refine ⟨listeners, ?_, ?_⟩
  · simp only [step, hp, heq, Option.map_some]
  · intro all
    rw [hlisteners, hs.lists, List.filter_map]
    congr 1
    apply List.filter_congr
    intro c hc
    obtain ⟨hlive, hout⟩ := List.mem_filter.mp hc
    have hc : c ∈ made s.log := List.mem_of_mem_filter hlive
    -- a listener is its own pipe's exactly when the connection it belongs to is
    rw [Function.comp_apply, decide_eq_decide]
    constructor
    · rintro h rfl
      refine h ⟨c.source, c.listener⟩ ?_ (of_decide_eq_true hout) rfl
      rw [hsubs, subsOf]
      exact List.mem_map.mpr ⟨c, List.mem_filter.mpr ⟨hc, decide_eq_true rfl⟩, rfl⟩
    · rintro hne sub hsub - hfn
      obtain ⟨d, hd, hdp, rfl⟩ := hmem sub hsub
      exact hne (by rw [← hs.eq_of_listener hd hc hfn, hdp])

/-- A cancellation takes out the connections of its pipe. -/
theorem live_cancelled (log : List Event) (p : ℕ) :
    live (log ++ [.cancelled p]) = (live log).filter (fun c => c.pipe ≠ p) := by
  rw [live, live, made_append, cancelled_append, List.filter_filter]
  have hnothing : made [Event.cancelled p] = [] := rfl
  rw [hnothing, List.append_nil]
  apply List.filter_congr
  intro c _
  simp [Pipes.cancelled, and_comm, not_or]

/-- The tables after a cancellation. -/
theorem of_cancelled (hs : Wired members s) {p : ℕ} {subs : List Sub}
    (hp : s.cancels[p]? = some (some subs)) {listeners : TableId → List ℕ}
    (hlisteners : ∀ all, listeners all = (((live s.log).filter (LeadsOut members all)).filter
      (fun c => c.pipe ≠ p)).map Connection.listener) :
    Wired members { s with listeners := listeners, log := s.log ++ [.cancelled p] } := by
  have hmadelog : made (s.log ++ [.cancelled p]) = made s.log := by
    rw [made_append]
    exact List.append_nil _
  refine ⟨?_, ?_, ?_, ?_, ?_, ?_⟩
  · intro all
    refine (hlisteners all).trans ?_
    show _ = ((live (s.log ++ [.cancelled p])).filter (LeadsOut members all)).map _
    rw [live_cancelled, List.filter_comm]
  · rw [hmadelog]
    exact hs.closures
  · rw [hmadelog]
    exact hs.table
  · rw [hmadelog]
    exact hs.pipes
  · rw [hmadelog]
    exact hs.subs
  · intro q hq
    rw [cancelled_append] at hq
    rcases List.mem_append.mp hq with hq | hq
    · exact hs.cancelled q hq
    · rw [List.mem_singleton.mp hq]
      exact (List.getElem?_eq_some_iff.mp hp).1

/-- Every call keeps the tables in agreement with the log. -/
theorem step (hs : Wired members s) {a : Action} (h : Pipes.step members s a = some t) :
    Wired members t := by
  cases a with
  | pipe args =>
    obtain ⟨links, hmade, -, hdone⟩ := made_of_pipe members s args
    simp only [Pipes.step] at h
    rcases hpipe : pipe members s args with ⟨err | subs, u⟩
    all_goals
      rw [hpipe] at h hmade hdone
    · obtain rfl := Option.some.inj h
      exact hs.of_made hmade (fun subs hnone => by cases hnone)
    · obtain rfl := Option.some.inj h
      exact hs.of_made hmade (fun _ hsome => Option.some.inj hsome ▸ (hdone subs rfl).1)
  | cancel p =>
    cases hp : s.cancels[p]? with
    | none => simp [Pipes.step, hp] at h
    | some entry =>
      cases entry with
      | none => simp [Pipes.step, hp] at h
      | some subs =>
        obtain ⟨listeners, hstep, hlisteners⟩ := hs.cancel_step hp
        obtain rfl := Option.some.inj (hstep.symm.trans h)
        exact hs.of_cancelled hp hlisteners

/-- The invariant says what is promised of the tables. -/
theorem listening (hs : Wired members s) : Listening members s where
  lists worker all _ := hs.lists all
  pipe args := connects_of_pipe members s args
  cancel p subs hp := by
    obtain ⟨listeners, hstep, hlisteners⟩ := hs.cancel_step hp
    have ht := hs.of_cancelled hp hlisteners
    obtain ⟨again, hstep', hagain⟩ := ht.cancel_step hp
    refine ⟨_, hstep, rfl, ?_, _, hstep', ?_⟩
    · intro all
      refine (hlisteners all).trans ?_
      rw [hs.lists, List.filter_map]
      congr 1
      apply List.filter_congr
      intro c hc
      have hc : c ∈ made s.log := List.mem_of_mem_filter (List.mem_filter.mp hc).1
      rw [Function.comp_apply, decide_eq_decide]
      constructor
      · rintro hne d hd hlistener rfl
        exact hne (by rw [hs.eq_of_listener hd hc hlistener])
      · intro h
        exact h c hc rfl
    · funext all
      have hagain : again all = ((((live s.log).filter (fun c => c.pipe ≠ p)).filter
          (LeadsOut members all)).filter (fun c => c.pipe ≠ p)).map Connection.listener := by
        rw [← live_cancelled]
        exact hagain all
      show again all = listeners all
      rw [hagain, hlisteners, List.filter_filter, List.filter_filter, List.filter_filter]
      congr 1
      apply List.filter_congr
      intro c _
      cases decide (c.pipe ≠ p) <;> simp

end Wired

/-- Whatever calls of `pipe` and of the functions it returned are made, the table of a worker
holds the listeners of the connections out of it whose pipe is not cancelled, in creation order.
The connections of a call lead from each worker of its chain to the next. A cancellation never
fails, removes the listeners of its own pipe only, and changes nothing when it is repeated. -/
theorem listening_of_run {actions : List Action} {s : State}
    (hrun : run (step members) start actions = some s) : Listening members s :=
  (run_invariant_of_step (fun hs h => hs.step h) (Wired.start members) hrun).listening

/-- Two workers with a table each, among objects that are no workers. -/
def twoWorkers (id : ℕ) : Member := if id < 2 then .table (.given id) else .absent

/-- Two pipes out of the first worker; the first of them is cancelled twice. -/
def twoPipes : List Action :=
  [.pipe [.object (.given 0), .function, .object (.given 0), .object (.given 1)],
    .pipe [.object (.given 0), .object (.given 1)], .cancel 0, .cancel 0]

/-- The listener of the second pipe is left. -/
theorem listening_of_twoPipes :
    ((run (step twoWorkers) start twoPipes).map fun s => s.listeners (.given 0)) = some [3] ∧
      ∃ s, run (step twoWorkers) start twoPipes = some s ∧ Listening twoWorkers s := by
  refine ⟨by decide, ?_⟩
  obtain ⟨s, hrun⟩ : ∃ s, run (step twoWorkers) start twoPipes = some s := ⟨_, rfl⟩
  exact ⟨s, hrun, listening_of_run hrun⟩

end Radapter.Pipes
