import Radapter.Pipes.Listening

/-!
# What a failed call of pipe leaves behind

`pipe` checks each argument when its loop gets there, and by then it has connected the earlier
ones. So an error undoes nothing: when the first fault stands at least two places behind a worker,
the link out of that worker stays, and no function is returned that could cancel it. The tables are
left alone when the fault comes earlier than that, or when everything so far back is wrapped
afresh.
-/

namespace Radapter.Pipes

variable (members : ℕ → Member)

/-- The table of the worker that an argument is; none for what `pipe` wraps or refuses. -/
def tableOf : Value → Option TableId
  | .object o =>
      match memberOf members o with
      | .table all => some all
      | _ => none
  | _ => none

/-- The loop body raises an error at this argument, whatever the arguments before it are. -/
def Refused : Value → Bool
  | .nil | .scalar => true
  | .function => false
  | .object o =>
      match memberOf members o with
      | .refuses | .raises _ => true
      | _ => false

/-- The object passes for a worker, but `connect` cannot use what its `get_listeners` returns. -/
def Mute : Value → Bool
  | .object o => memberOf members o = .other
  | _ => false

/-- How many arguments stand before the first that fails: it is refused, or the one before it
(`mute` for the first) has no table. -/
def faultAt (mute : Bool) : List Value → Option ℕ
  | [] | .nil :: _ => none
  | v :: rest =>
      if Refused members v || mute then some 0 else (faultAt (Mute members v) rest).map (· + 1)

/-- The worker with this table exists. -/
def Known (s : State) : TableId → Prop
  | .given _ => True
  | .wrapped n => n < s.wrappers

/-- No worker stands at least two places before the first argument that fails. -/
def Spared (s : State) (args : List Value) : Prop :=
  ∀ k, faultAt members false args = some k → ∀ v ∈ args.take (k - 1), ∀ all,
    tableOf members v = some all → ¬ Known s all

variable {members} {s t : State}

/-- A worker that exists goes on to exist. -/
theorem Known.mono {all : TableId} {links : List Connection} (h : Known s all)
    (hmade : Made members s t links) : Known t all := by
  cases all with
  | given id => trivial
  | wrapped n => exact Nat.lt_of_lt_of_le h hmade.wrappers

/-- A worker has the table that its `get_listeners` returns. -/
theorem tableOf_object {o : Object} {all : TableId} :
    tableOf members (.object o) = some all ↔ memberOf members o = .table all := by
  cases h : memberOf members o <;> simp [tableOf, h]

/-- A table that is there belongs to the worker an argument stands for exactly when it belongs to
the argument: an anonymous worker is new. -/
theorem tableOf_toWorker {i : ℕ} {v : Value} {o : Object}
    (h : toWorker members i v s = .ok (o, t)) {all : TableId} (hknown : Known s all) :
    tableOf members (.object o) = some all ↔ tableOf members v = some all := by
  rw [tableOf_object]
  rcases toWorker_cases h with ⟨hv, hwrap⟩ | ⟨rfl, -, -⟩
  · have hnot : memberOf members o ≠ .table all := by
      cases hwrap
      intro hall
      obtain rfl : TableId.wrapped s.wrappers = all := Member.table.inj hall
      exact absurd hknown (Nat.lt_irrefl _)
    rcases hv with rfl | ⟨p, rfl, hp⟩
    · simp [tableOf, hnot]
    · simp [tableOf, hp, hnot]
  · exact tableOf_object.symm

/-- An argument that raises an error is one that is refused. -/
theorem refused_of_error {i : ℕ} {v : Value} {err : String}
    (h : toWorker members i v s = .error err) : Refused members v = true := by
  cases v with
  | nil | scalar => rfl
  | function => cases h
  | object o => cases ho : memberOf members o <;> simp_all [Refused, toWorker]

/-- What an argument stands for is a worker, and has no table only if the argument is one whose
`get_listeners` returns something else. -/
theorem of_toWorker {i : ℕ} {v : Value} {o : Object} (h : toWorker members i v s = .ok (o, t)) :
    Refused members v = false ∧ Mute members (.object o) = Mute members v ∧
      (memberOf members o = .other ∨ ∃ all, memberOf members o = .table all) := by
  rcases toWorker_cases h with ⟨hv, hwrap⟩ | ⟨rfl, -, hworks⟩
  · have hown : memberOf members o = .table (.wrapped s.wrappers) := by
      cases hwrap
      rfl
    rcases hv with rfl | ⟨p, rfl, hp⟩
    · exact ⟨rfl, by simp [Mute, hown], .inr ⟨_, hown⟩⟩
    · exact ⟨by simp [Refused, hp], by simp [Mute, hp, hown], .inr ⟨_, hown⟩⟩
  · refine ⟨?_, rfl, hworks⟩
    rcases hworks with hother | ⟨all, hall⟩
    · simp [Refused, hother]
    · simp [Refused, hall]

/-- `connect` fails only for a worker whose table it cannot use. -/
theorem connect_error {source ipipe : Object} {err : String}
    (hsource : memberOf members source = .other ∨ ∃ all, memberOf members source = .table all)
    (h : connect members s source ipipe = .error err) : Mute members (.object source) = true := by
  rcases hsource with hother | ⟨all, hall⟩
  · simp [Mute, hother]
  · simp [connect, hall] at h

/-- The first argument fails when it is refused, or when the one before it has no table. -/
theorem faultAt_stop {mute : Bool} {v : Value} (hv : v ≠ .nil) (rest : List Value)
    (hfault : Refused members v = true ∨ mute = true) :
    faultAt members mute (v :: rest) = some 0 := by
  rw [faultAt, if_pos (by simpa using hfault)]
  exact hv

/-- Otherwise the first that fails is one of the others. -/
theorem faultAt_pass {v : Value} (hv : v ≠ .nil) (rest : List Value)
    (hrefused : Refused members v = false) :
    faultAt members false (v :: rest) =
      (faultAt members (Mute members v) rest).map (· + 1) := by
  rw [faultAt, if_neg (by simp [hrefused])]
  exact hv

/-- The loop of `pipe` with a worker to connect from. It ends at the first fault, and the sources
of the connections it has made are that worker and the arguments up to the last but one before
the fault. -/
theorem chain_faultAt (i : ℕ) (args : List Value) (l : Locals) (s : State) {curr : Object}
    (hcurr : l.curr = some curr)
    (hsource : memberOf members curr = .other ∨ ∃ all, memberOf members curr = .table all) :
    (∀ l', (chain members i args l s).1 = .ok l' →
      faultAt members (Mute members (.object curr)) args = none) ∧
    ∀ err, (chain members i args l s).1 = .error err → ∃ k links,
      faultAt members (Mute members (.object curr)) args = some k ∧
      Made members s (chain members i args l s).2 links ∧
      ∀ all, Known s all → ((∃ c ∈ links, LeadsOut members all c) ↔
        ∃ v ∈ (.object curr :: args).take k, tableOf members v = some all) := by
  fun_induction chain members i args l s generalizing curr with
  | case1 i l s => exact ⟨fun l' hl => rfl, fun err herr => by cases herr⟩
  | case2 i rest l s => exact ⟨fun l' hl => rfl, fun err herr => by cases herr⟩
  | case3 i v rest l s hv err hworker =>
    refine ⟨(fun l' hl => by cases hl), fun err herr => ?_⟩
    refine ⟨0, [], faultAt_stop hv rest (.inl (refused_of_error hworker)),
      .nothing (Nat.le_refl _), ?_⟩
    simp
  | case4 i v rest l s hv o s' hworker hnone ih =>
    rw [hnone] at hcurr
    cases hcurr
  | case5 i v rest l s hv o s' hworker source hsome err hconnect =>
    obtain rfl := Option.some.inj (hsome.symm.trans hcurr)
    refine ⟨(fun l' hl => by cases hl), fun err herr => ?_⟩
    refine ⟨0, [], faultAt_stop hv rest (.inr (connect_error hsource hconnect)),
      made_of_toWorker hworker, ?_⟩
    simp
  | case6 i v rest l s hv o s' hworker source hsome fn s'' hconnect ih =>
    obtain rfl := Option.some.inj (hsome.symm.trans hcurr)
    obtain ⟨hrefused, hmute, hworks⟩ := of_toWorker hworker
    obtain ⟨⟨all, hall⟩, rfl, hlink⟩ := connect_cases hconnect
    have hmade := (made_of_toWorker hworker).trans hlink
    have hmutesource : Mute members (.object source) = false := by simp [Mute, hall]
    rw [hmutesource, faultAt_pass hv rest hrefused, ← hmute]
    obtain ⟨hok, herror⟩ := ih rfl hworks
    refine ⟨?_, ?_⟩
    · intro l' hl
      rw [hok l' hl]
      rfl
    · intro err herr
      obtain ⟨k, links, hfault, hrest, htables⟩ := herror err herr
      refine ⟨k + 1, _, by rw [hfault]; rfl, hmade.trans hrest, ?_⟩
      intro table hknown
      have hknown' : Known s'' table := hknown.mono hmade
      have hnew := tableOf_toWorker hworker hknown
      have hlater : (∃ c ∈ links, LeadsOut members table c) ↔
          ∃ w ∈ (v :: rest).take k, tableOf members w = some table := by
        rw [htables table hknown']
        cases k with
        | zero => simp
        | succ k => simp only [List.take_succ_cons, List.exists_mem_cons_iff, hnew]
      rw [List.take_succ_cons, List.exists_mem_cons_iff, ← hlater, tableOf_object]
      simp only [List.nil_append, List.cons_append, List.exists_mem_cons_iff]
      rfl

/-- Once `res` is set it stays set. -/
theorem res_of_chain (i : ℕ) (args : List Value) {l : Locals} (s : State) (hres : l.res ≠ none) :
    ∀ l', (chain members i args l s).1 = .ok l' → l'.res ≠ none := by
  fun_induction chain members i args l s with
  | case1 i l s =>
    rintro l' ⟨⟩
    exact hres
  | case2 i rest l s =>
    rintro l' ⟨⟩
    exact hres
  | case3 i v rest l s hv err hworker => exact fun l' hl => by cases hl
  | case4 i v rest l s hv o s' hworker hnone ih => exact ih (by simp)
  | case5 i v rest l s hv o s' hworker source hsome err hconnect => exact fun l' hl => by cases hl
  | case6 i v rest l s hv o s' hworker source hsome fn s'' hconnect ih => exact ih (by simp)

variable (members) in
/-- How a call of `pipe` ends: well when no argument fails, and otherwise with an error, and then
the tables that were there differ for the workers at least two places before the fault. -/
theorem pipe_cases (s : State) (args : List Value) :
    (∃ subs t, pipe members s args = (.ok subs, t) ∧ faultAt members false args = none) ∨
    ∃ err t, pipe members s args = (.error err, t) ∧
      ((faultAt members false args = none ∧ t = s) ∨
        ∃ k, faultAt members false args = some k ∧ ∀ all, Known s all →
          (t.listeners all = s.listeners all ↔
            ∀ v ∈ args.take (k - 1), tableOf members v ≠ some all)) := by
  have hnil : args.headD .nil = .nil → faultAt members false args = none := by
    cases args with
    | nil => exact fun _ => rfl
    | cons v rest =>
      rintro rfl
      rfl
  by_cases hfirst : args.headD .nil = .nil
  · exact .inr ⟨_, s, by rw [pipe, if_pos hfirst], .inl ⟨hnil hfirst, rfl⟩⟩
  cases args with
  | nil => exact absurd rfl hfirst
  | cons v rest =>
    have hv : v ≠ .nil := hfirst
    cases hworker : toWorker members 1 v s with
    | error err =>
      have hpipe : pipe members s (v :: rest) = (.error err, s) := by
        rw [pipe, if_neg hfirst, chain, hworker]
        exact hv
      refine .inr ⟨err, s, hpipe,
        .inr ⟨0, faultAt_stop hv rest (.inl (refused_of_error hworker)), ?_⟩⟩
      simp
    | ok pair =>
      obtain ⟨o, s'⟩ := pair
      obtain ⟨hrefused, hmute, hworks⟩ := of_toWorker hworker
      have hchain : chain members 1 (v :: rest) ⟨none, none, []⟩ s =
          chain members 2 rest ⟨some o, some o, []⟩ s' := by
        rw [chain, hworker]
        · rfl
        · exact hv
      obtain ⟨hok, herror⟩ := chain_faultAt 2 rest ⟨some o, some o, []⟩ s' rfl hworks
      have hres : ∀ l', (chain members 2 rest ⟨some o, some o, []⟩ s').1 = .ok l' → l'.res ≠ none :=
        res_of_chain 2 rest s' (Option.some_ne_none o)
      rw [hmute] at hok herror
      rcases hend : chain members 2 rest ⟨some o, some o, []⟩ s' with ⟨err | l', t⟩
      all_goals
        rw [hend] at hok herror hres
        have hpipe := hchain.trans hend
      · obtain ⟨k, links, hfault, hmade, htables⟩ := herror err rfl
        refine .inr ⟨err, t, by rw [pipe, if_neg hfirst, hpipe], .inr ⟨k + 1, ?_, ?_⟩⟩
        · rw [faultAt_pass hv rest hrefused, hfault]
          rfl
        · intro all hknown
          have hmade := (made_of_toWorker hworker).trans hmade
          have hnew := tableOf_toWorker hworker hknown
          have hall := htables all (hknown.mono (made_of_toWorker hworker))
          have hhead : (∃ w ∈ (.object o :: rest).take k, tableOf members w = some all) ↔
              ∃ w ∈ (v :: rest).take k, tableOf members w = some all := by
            cases k with
            | zero => simp
            | succ k => simp only [List.take_succ_cons, List.exists_mem_cons_iff, hnew]
          rw [hhead] at hall
          rw [hmade.listeners, List.append_right_eq_self, List.map_eq_nil_iff,
            List.filter_eq_nil_iff, Nat.add_sub_cancel]
          simpa using not_congr hall
      · refine .inl ⟨l'.subs, t, ?_, ?_⟩
        · rw [pipe, if_neg hfirst, hpipe]
          exact if_neg (hres l' rfl)
        · rw [faultAt_pass hv rest hrefused, hok l' rfl]
          rfl

/-- A call of `pipe` that raises an error leaves the tables of all workers as they were if and
only if no worker stands at least two places before the first argument that fails. -/
theorem unchanged_iff_spared (members : ℕ → Member) (s : State) (args : List Value) :
    (∀ err t, pipe members s args = (.error err, t) →
      ∀ all, Known s all → t.listeners all = s.listeners all) ↔ Spared members s args := by
  rcases pipe_cases members s args with
    ⟨subs, t, hpipe, hfault⟩ | ⟨err, t, hpipe, ⟨hfault, rfl⟩ | ⟨k, hfault, htables⟩⟩
  · constructor
    · intro _ k hk
      rw [hfault] at hk
      cases hk
    · intro _ err u hu
      rw [hpipe] at hu
      cases hu
  · constructor
    · intro _ k hk
      rw [hfault] at hk
      cases hk
    · intro _ err' u hu all _
      rw [hpipe] at hu
      cases hu
      rfl
  · constructor
    · intro hunchanged j hj v hv all hall hknown
      obtain rfl := Option.some.inj (hfault.symm.trans hj)
      exact (htables all hknown).mp (hunchanged err t hpipe all hknown) v hv hall
    · intro hspared err' u hu all hknown
      rw [hpipe] at hu
      cases hu
      apply (htables all hknown).mpr
      intro v hv hall
      exact hspared k hfault v hv all hall hknown

/-- The third argument is a number: the first two stay connected. -/
theorem failed_pipe_connects :
    ¬ ∀ err t, pipe twoWorkers start [.object (.given 0), .object (.given 1), .scalar] =
      (.error err, t) → ∀ all, Known start all → t.listeners all = start.listeners all := by
  intro hunchanged
  have hlisteners := hunchanged "function, table or userdata expected at arg 3" _ rfl (.given 0)
    trivial
  cases hlisteners

end Radapter.Pipes
