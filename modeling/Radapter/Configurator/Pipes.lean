import Radapter.Configurator.Context
import Radapter.Library.Runs

/-!
# What holds of the pipes

The pipes of a project are to differ from each other, and to connect two objects that there are.
Only `addPipe` looks for a pipe that is there already. `setPipeDirective` may make a pipe what
another one is, and `rename`, which drops the directives, makes all pipes between two objects one.
-/

namespace Radapter.Configurator

open Library
open Tags (literal)

/-! ## Operations -/

inductive Action where
  | put (name type : QString) (config : QVariant)
  | remove (name : QString)
  | rename (oldName newName : QString)
  | addPipe (fromName toName : QString) (kind : Option Kind) (key : Option QString)
  | removePipe (i : ℤ)
  | setPipeDirective (i : ℤ) (kind : Option Kind) (key : Option QString)

/-- One operation. Objects are renamed to names that are not in use, and pipes are added between
objects that there are. -/
def step (ctx : Context) : Action → Option Context
  | .put name type config => some (ctx.put name type config)
  | .remove name => some (ctx.remove name)
  | .rename oldName newName =>
      if ctx.has newName = false then some (ctx.rename oldName newName) else none
  | .addPipe fromName toName kind key =>
      if ctx.has fromName = true ∧ ctx.has toName = true then
        some (ctx.addPipe fromName toName kind key).1
      else none
  | .removePipe i => some (ctx.removePipe i)
  | .setPipeDirective i kind key => some (ctx.setPipeDirective i kind key).1

structure Sound (ctx : Context) : Prop where
  different : ctx.pipes.Pairwise (fun a b => samePipe a b = false)
  connects : ∀ p ∈ ctx.pipes, ctx.has p.fromName = true ∧ ctx.has p.toName = true
  noLoop : ∀ p ∈ ctx.pipes, p.fromName ≠ p.toName

/-- Two pipes between the same objects in the same direction. -/
def sameEnds (a b : Pipe) : Prop := a.fromName = b.fromName ∧ a.toName = b.toName

/-- An object is renamed while no two pipes differ in their directives only, and a directive is set
that makes the pipe none of the others. -/
def KeepsApart (ctx : Context) : Action → Prop
  | .rename oldName _ =>
      ctx.has oldName = true → ctx.pipes.Pairwise (fun a b => ¬ sameEnds a b)
  | .setPipeDirective i kind key => ∀ old np, 0 ≤ i → ctx.pipes[i.toNat]? = some old →
      directed old.fromName old.toName kind key = some np →
      ∀ j p, j ≠ i.toNat → ctx.pipes[j]? = some p → samePipe p np = false
  | .put _ _ _ => True
  | .remove _ => True
  | .addPipe _ _ _ _ => True
  | .removePipe _ => True

/-! ## Lists of which no two are alike -/

section Pairwise

variable {α : Type*} {R : α → α → Prop}

/-- What stands at one place of such a list is replaced. -/
theorem pairwise_set_iff (hsymm : ∀ {a b}, R a b → R b a) {l : List α} (h : l.Pairwise R) {i : ℕ}
    (hi : i < l.length) (x : α) :
    (l.set i x).Pairwise R ↔ ∀ j a, j ≠ i → l[j]? = some a → R a x := by
  constructor
  · intro hset j a hji ha
    obtain ⟨hj, rfl⟩ := List.getElem?_eq_some_iff.mp ha
    rw [List.pairwise_iff_getElem] at hset
    rcases Nat.lt_or_gt_of_ne hji with hlt | hgt
    · have hpair := hset j i (by rwa [List.length_set]) (by rwa [List.length_set]) hlt
      rwa [List.getElem_set_ne (Ne.symm hji), List.getElem_set_self] at hpair
    · have hpair := hset i j (by rwa [List.length_set]) (by rwa [List.length_set]) hgt
      rw [List.getElem_set_ne (Ne.symm hji), List.getElem_set_self] at hpair
      exact hsymm hpair
  · intro hall
    rw [List.pairwise_iff_getElem] at h ⊢
    intro j k hjset hkset hjk
    have hj : j < l.length := by rwa [List.length_set] at hjset
    have hk : k < l.length := by rwa [List.length_set] at hkset
    by_cases hji : j = i
    · subst hji
      rw [List.getElem_set_self, List.getElem_set_ne (by omega)]
      exact hsymm (hall k l[k] (by omega) (List.getElem?_eq_getElem hk))
    · by_cases hki : k = i
      · subst hki
        rw [List.getElem_set_self, List.getElem_set_ne (by omega)]
        exact hall j l[j] hji (List.getElem?_eq_getElem hj)
      · rw [List.getElem_set_ne (Ne.symm hji), List.getElem_set_ne (Ne.symm hki)]
        exact h j k hj hk hjk

end Pairwise

/-- Two pipes are the same if their ends, directions and keys are. -/
theorem samePipe_iff {a b : Pipe} : samePipe a b = true ↔
    a.fromName = b.fromName ∧ a.toName = b.toName ∧ a.pipeDir = b.pipeDir ∧
      a.pipeKey = b.pipeKey := by
  simp only [samePipe, Bool.and_eq_true, beq_iff_eq, and_assoc]

/-- To differ is mutual. -/
theorem samePipe_symm {a b : Pipe} (h : samePipe a b = false) : samePipe b a = false := by
  rw [← Bool.not_eq_true, samePipe_iff] at h ⊢
  rintro ⟨hfrom, hto, hdir, hkey⟩
  exact h ⟨hfrom.symm, hto.symm, hdir.symm, hkey.symm⟩

/-! ## One operation after the other -/

/-- Some of the pipes, and at least the objects that they connect. -/
private theorem Sound.of_sublist {ctx next : Context} (h : Sound ctx)
    (hpipes : next.pipes.Sublist ctx.pipes)
    (hhas : ∀ p ∈ next.pipes, (ctx.has p.fromName = true → next.has p.fromName = true) ∧
      (ctx.has p.toName = true → next.has p.toName = true)) : Sound next := by
  constructor
  · exact h.different.sublist hpipes
  · intro p hp
    obtain ⟨hfrom, hto⟩ := h.connects p (hpipes.subset hp)
    exact ⟨(hhas p hp).1 hfrom, (hhas p hp).2 hto⟩
  · exact fun p hp => h.noLoop p (hpipes.subset hp)

/-- A new object leaves the pipes alone. -/
private theorem Sound.put {ctx : Context} (h : Sound ctx) (name type : QString)
    (config : QVariant) : Sound (ctx.put name type config) := by
  have hhas : ∀ other, ctx.has other = true → (ctx.put name type config).has other = true := by
    intro other hother
    change (List.lookup other (Assoc.put name _ ctx.objects)).isSome = true
    by_cases hname : other = name
    · rw [hname, Assoc.lookup_put_self]
      rfl
    · rw [Assoc.lookup_put_ne hname]
      exact hother
  exact h.of_sublist (List.Sublist.refl _) (fun p _ => ⟨hhas p.fromName, hhas p.toName⟩)

/-- With an object its pipes go. -/
private theorem Sound.remove {ctx : Context} (h : Sound ctx) (name : QString) :
    Sound (ctx.remove name) := by
  rw [Context.remove]
  split_ifs with hno
  · exact h
  · refine h.of_sublist List.filter_sublist ?_
    intro p hp
    have hends := (List.mem_filter.mp hp).2
    rw [decide_eq_true_eq] at hends
    have hhas : ∀ other, other ≠ name → ctx.has other = true →
        (Assoc.erase name ctx.objects).lookup other ≠ none := by
      intro other hother hin
      obtain ⟨object, hobject⟩ := Context.has_iff.mp hin
      rw [Assoc.lookup_erase_ne hother, hobject]
      exact Option.some_ne_none object
    exact ⟨fun hin => Option.isSome_iff_ne_none.mpr (hhas _ hends.1 hin),
      fun hin => Option.isSome_iff_ne_none.mpr (hhas _ hends.2 hin)⟩

/-- The other pipes stay apart. -/
private theorem Sound.removePipe {ctx : Context} (h : Sound ctx) (i : ℤ) :
    Sound (ctx.removePipe i) := by
  refine h.of_sublist ?_ (fun p _ => ⟨id, id⟩)
  have hsub := (List.filter_sublist (l := ctx.pipes.zipIdx)
    (p := fun e : Pipe × ℕ => (e.2 : ℤ) ≠ i)).map Prod.fst
  rwa [List.zipIdx_map_fst] at hsub

/-- The ends of a pipe that is made for a directive. -/
theorem directed_ends {fromName toName : QString} {kind : Option Kind} {key : Option QString}
    {p : Pipe} (h : directed fromName toName kind key = some p) :
    p.fromName = fromName ∧ p.toName = toName := by
  cases kind with
  | none =>
    obtain rfl := Option.some.inj h
    exact ⟨rfl, rfl⟩
  | some kind =>
    cases kind with
    | pipe =>
      obtain rfl := Option.some.inj h
      exact ⟨rfl, rfl⟩
    | wrap =>
      obtain ⟨-, heq⟩ := Option.ite_none_left_eq_some.mp h
      obtain rfl := Option.some.inj heq
      exact ⟨rfl, rfl⟩
    | unwrap =>
      obtain ⟨-, heq⟩ := Option.ite_none_left_eq_some.mp h
      obtain rfl := Option.some.inj heq
      exact ⟨rfl, rfl⟩
    | onField =>
      obtain ⟨-, heq⟩ := Option.ite_none_left_eq_some.mp h
      obtain rfl := Option.some.inj heq
      exact ⟨rfl, rfl⟩

/-- A pipe is added only if there is none like it. -/
private theorem Sound.addPipe {ctx : Context} (h : Sound ctx) {fromName toName : QString}
    (hhas : ctx.has fromName = true ∧ ctx.has toName = true) (kind : Option Kind)
    (key : Option QString) : Sound (ctx.addPipe fromName toName kind key).1 := by
  rw [Context.addPipe]
  split_ifs with hloop
  · exact h
  · cases hp : directed fromName toName kind key with
    | none => exact h
    | some p =>
      obtain ⟨rfl, rfl⟩ := directed_ends hp
      simp only
      split_ifs with hthere
      · exact h
      · rw [Context.hasPipe, Bool.not_eq_true, List.any_eq_false] at hthere
        constructor
        · refine List.pairwise_append.mpr ⟨h.different, List.pairwise_singleton _ _, ?_⟩
          intro a ha b hb
          rw [List.mem_singleton.mp hb]
          exact Bool.not_eq_true _ ▸ hthere a ha
        · intro q hq
          rcases List.mem_append.mp hq with hq | hq
          · exact h.connects q hq
          · rw [List.mem_singleton.mp hq]
            exact hhas
        · intro q hq
          rcases List.mem_append.mp hq with hq | hq
          · exact h.noLoop q hq
          · rw [List.mem_singleton.mp hq]
            exact hloop

/-! ## Renaming and directives -/

/-- Names other than the new one are renamed to different names. -/
theorem renamed_inj {oldName newName a b : QString} (ha : a ≠ newName) (hb : b ≠ newName) :
    renamed oldName newName a = renamed oldName newName b ↔ a = b := by
  rw [renamed, renamed]
  split_ifs with haold hbold hbold
  · exact ⟨fun _ => haold.trans hbold.symm, fun _ => rfl⟩
  · exact ⟨fun h => absurd h.symm hb, fun h => absurd (h ▸ haold) hbold⟩
  · exact ⟨fun h => absurd h ha, fun h => absurd (h ▸ hbold) haold⟩
  · exact Iff.rfl

/-- The renamed pipes are the same if their ends were. -/
theorem samePipe_rename_iff {oldName newName : QString} {a b : Pipe}
    (ha : a.fromName ≠ newName ∧ a.toName ≠ newName)
    (hb : b.fromName ≠ newName ∧ b.toName ≠ newName) :
    samePipe (a.rename oldName newName) (b.rename oldName newName) = true ↔ sameEnds a b := by
  rw [samePipe_iff]
  change renamed _ _ _ = renamed _ _ _ ∧ renamed _ _ _ = renamed _ _ _ ∧ _ ↔ _
  rw [renamed_inj ha.1 hb.1, renamed_inj ha.2 hb.2, sameEnds]
  exact ⟨fun h => ⟨h.1, h.2.1⟩, fun h => ⟨h.1, h.2, rfl, rfl⟩⟩

/-- The ends of a pipe are not the new name. -/
private theorem Sound.ends_ne {ctx : Context} (h : Sound ctx) {newName : QString}
    (hnew : ctx.has newName = false) {p : Pipe} (hp : p ∈ ctx.pipes) :
    p.fromName ≠ newName ∧ p.toName ≠ newName := by
  obtain ⟨hfrom, hto⟩ := h.connects p hp
  constructor
  · intro heq
    rw [heq, hnew] at hfrom
    cases hfrom
  · intro heq
    rw [heq, hnew] at hto
    cases hto

/-- After a renaming, no two pipes are the same if and only if no two had the same ends. -/
private theorem different_rename_iff {ctx : Context} (h : Sound ctx) {oldName newName : QString}
    (hnew : ctx.has newName = false) :
    (ctx.pipes.map (Pipe.rename oldName newName)).Pairwise (fun a b => samePipe a b = false) ↔
      ctx.pipes.Pairwise (fun a b => ¬ sameEnds a b) := by
  rw [List.pairwise_map]
  apply List.Pairwise.iff_of_mem
  intro a b ha hb
  rw [← Bool.not_eq_true, samePipe_rename_iff (h.ends_ne hnew ha) (h.ends_ne hnew hb)]

/-- An object that there is not is not renamed. -/
private theorem rename_of_gone {ctx : Context} {oldName : QString} (hold : ctx.has oldName = false)
    (newName : QString) : ctx.rename oldName newName = ctx := by
  rw [Context.rename, Context.has_eq_false_iff.mp hold]

/-- A renamed object keeps its pipes, which stay apart if they do not differ in their directives
only. -/
private theorem Sound.rename {ctx : Context} (h : Sound ctx) {oldName newName : QString}
    (hnew : ctx.has newName = false)
    (hkeeps : ctx.has oldName = true → ctx.pipes.Pairwise (fun a b => ¬ sameEnds a b)) :
    Sound (ctx.rename oldName newName) := by
  cases hold : ctx.has oldName with
  | false => rwa [rename_of_gone hold]
  | true =>
    obtain ⟨object, hobject⟩ := Context.has_iff.mp hold
    obtain ⟨-, heq⟩ := Context.rename_eq hobject hnew
    have hlookup := Context.lookup_rename hobject hnew
    have hhas : ∀ name, ctx.has name = true →
        (ctx.rename oldName newName).has (renamed oldName newName name) = true := by
      intro name hname
      rw [Context.has_iff, renamed]
      by_cases hself : name = oldName
      · exact ⟨object, by rw [if_pos hself, hlookup, if_pos rfl]⟩
      · obtain ⟨o, ho⟩ := Context.has_iff.mp hname
        have hother : name ≠ newName := by
          rintro rfl
          rw [hnew] at hname
          cases hname
        exact ⟨o, by rw [if_neg hself, hlookup, if_neg hother, if_neg hself, ho]⟩
    have hpipes : (ctx.rename oldName newName).pipes =
        ctx.pipes.map (Pipe.rename oldName newName) := congrArg Context.pipes heq
    constructor
    · rw [hpipes]
      exact (different_rename_iff h hnew).mpr (hkeeps hold)
    · intro p hp
      rw [hpipes] at hp
      obtain ⟨q, hq, rfl⟩ := List.mem_map.mp hp
      obtain ⟨hfrom, hto⟩ := h.connects q hq
      exact ⟨hhas q.fromName hfrom, hhas q.toName hto⟩
    · intro p hp
      rw [hpipes] at hp
      obtain ⟨q, hq, rfl⟩ := List.mem_map.mp hp
      obtain ⟨hfrom, hto⟩ := h.ends_ne hnew hq
      exact fun hloop => h.noLoop q hq ((renamed_inj hfrom hto).mp hloop)

/-- What `setPipeDirective` does, if it does anything. -/
theorem setPipeDirective_cases (ctx : Context) (i : ℤ) (kind : Option Kind)
    (key : Option QString) : (ctx.setPipeDirective i kind key).1 = ctx ∨
      ∃ old np, 0 ≤ i ∧ ctx.pipes[i.toNat]? = some old ∧
        directed old.fromName old.toName kind key = some np ∧
        (ctx.setPipeDirective i kind key).1 =
          { ctx with pipes := ctx.pipes.set i.toNat np }.bump := by
  rw [Context.setPipeDirective]
  split_ifs with hneg
  · exact Or.inl rfl
  · cases hold : ctx.pipes[i.toNat]? with
    | none => exact Or.inl rfl
    | some old =>
      cases hnp : directed old.fromName old.toName kind key with
      | none =>
        simp only [hnp]
        exact Or.inl trivial
      | some np =>
        simp only [hnp]
        exact Or.inr ⟨old, np, by omega, rfl, hnp, rfl⟩

/-- A pipe may get a directive that none like it has. -/
private theorem Sound.setPipeDirective {ctx : Context} (h : Sound ctx) {i : ℤ}
    {kind : Option Kind} {key : Option QString}
    (hkeeps : KeepsApart ctx (.setPipeDirective i kind key)) :
    Sound (ctx.setPipeDirective i kind key).1 := by
  rcases setPipeDirective_cases ctx i kind key with heq | ⟨old, np, hi, hold, hnp, heq⟩
  · rwa [heq]
  · obtain ⟨hlt, -⟩ := List.getElem?_eq_some_iff.mp hold
    obtain ⟨hfrom, hto⟩ := directed_ends hnp
    have hmem := List.mem_of_getElem? hold
    rw [heq]
    constructor
    · exact (pairwise_set_iff samePipe_symm h.different hlt np).mpr (hkeeps old np hi hold hnp)
    · intro p hp
      rcases List.mem_or_eq_of_mem_set hp with hp | rfl
      · exact h.connects p hp
      · rw [hfrom, hto]
        exact h.connects old hmem
    · intro p hp
      rcases List.mem_or_eq_of_mem_set hp with hp | rfl
      · exact h.noLoop p hp
      · rw [hfrom, hto]
        exact h.noLoop old hmem

/-! ## Sequences of operations -/

/-- Every operation that keeps pipes apart keeps the context sound. -/
theorem Sound.step {ctx next : Context} {a : Action} (h : Sound ctx) (hkeeps : KeepsApart ctx a)
    (hstep : Configurator.step ctx a = some next) : Sound next := by
  cases a with
  | put name type config =>
    obtain rfl := Option.some.inj hstep
    exact h.put name type config
  | remove name =>
    obtain rfl := Option.some.inj hstep
    exact h.remove name
  | rename oldName newName =>
    obtain ⟨hnew, rfl⟩ := of_guarded hstep
    exact h.rename hnew hkeeps
  | addPipe fromName toName kind key =>
    obtain ⟨hhas, rfl⟩ := of_guarded hstep
    exact h.addPipe hhas kind key
  | removePipe i =>
    obtain rfl := Option.some.inj hstep
    exact h.removePipe i
  | setPipeDirective i kind key =>
    obtain rfl := Option.some.inj hstep
    exact h.setPipeDirective hkeeps

/-- An operation that does not keep the pipes apart makes two of them the same. -/
theorem Sound.break {ctx next : Context} {a : Action} (h : Sound ctx)
    (hbad : ¬ KeepsApart ctx a) (hstep : Configurator.step ctx a = some next) : ¬ Sound next := by
  intro hnext
  apply hbad
  cases a with
  | put name type config => trivial
  | remove name => trivial
  | addPipe fromName toName kind key => trivial
  | removePipe i => trivial
  | rename oldName newName =>
    obtain ⟨hnew, rfl⟩ := of_guarded hstep
    intro hold
    obtain ⟨object, hobject⟩ := Context.has_iff.mp hold
    obtain ⟨-, heq⟩ := Context.rename_eq hobject hnew
    have hdifferent := hnext.different
    rw [heq] at hdifferent
    exact (different_rename_iff h hnew).mp hdifferent
  | setPipeDirective i kind key =>
    obtain rfl := Option.some.inj hstep
    intro old np hi hold hnp
    obtain ⟨hlt, -⟩ := List.getElem?_eq_some_iff.mp hold
    have hdifferent := hnext.different
    rw [Context.setPipeDirective, if_neg (by omega)] at hdifferent
    simp only [hold, hnp] at hdifferent
    exact (pairwise_set_iff samePipe_symm h.different hlt np).mp hdifferent

/-- From a sound state, the pipes stay different, connected and without loops at every point of a
sequence of operations if and only if every operation keeps the pipes apart. -/
theorem sound_iff {ctx next : Context} (h : Sound ctx) {actions : List Action}
    (hrun : run step ctx actions = some next) :
    (∀ done u, done <+: actions → run step ctx done = some u → Sound u) ↔
      Along step KeepsApart ctx actions :=
  forall_run_iff_along Sound.step id Sound.break h hrun

/-- Two pipes from a master to a stream, the second with a key. -/
def twoPipes : Context where
  objects := [(literal "master", ⟨literal "ModbusMaster", .map []⟩),
    (literal "stream", ⟨literal "RedisStream", .map []⟩)]
  pipes := [.plain (literal "master") (literal "stream"),
    { Pipe.plain (literal "master") (literal "stream") with wrap := some (literal "k") }]
  visualization := .map []
  revision := 0

/-- The pipes of the sample differ in their keys. -/
theorem sound_twoPipes : Sound twoPipes := ⟨by decide, by decide, by decide⟩

/-- The second pipe has another directive, the first is removed, and the master is renamed. -/
def apart : List Action :=
  [.setPipeDirective 1 (some .unwrap) (some (literal " k")), .removePipe 0,
    .rename (literal "master") (literal "plc")]

/-- A directive, a removal and a new name: the context stays sound. -/
theorem sound_apart : ∃ next, run step twoPipes apart = some next ∧ Sound next := by
  obtain ⟨next, hnext⟩ : ∃ next, run step twoPipes apart = some next := ⟨_, rfl⟩
  refine ⟨next, hnext, (sound_iff sound_twoPipes hnext).mpr ?_ _ next List.prefix_rfl hnext⟩
  refine Along.cons ?_ rfl (Along.cons trivial rfl
    (Along.cons (fun _ => List.pairwise_singleton _ _) rfl trivial))
  rintro old np - hold hnp j p hj hp
  obtain rfl := Option.some.inj hold
  obtain rfl := Option.some.inj hnp
  cases j with
  | zero =>
    obtain rfl := Option.some.inj hp
    decide
  | succ j =>
    cases j with
    | zero => exact absurd rfl hj
    | succ j => cases hp

/-- The two pipes are the same when the master has been renamed, and when the second has been made
plain. -/
theorem not_sound_twoPipes : Sound twoPipes ∧
    (∃ next, run step twoPipes [.rename (literal "master") (literal "plc")] = some next ∧
      ¬ Sound next) ∧
    ∃ next, run step twoPipes [.setPipeDirective 1 (some .pipe) none] = some next ∧
      ¬ Sound next := by
  refine ⟨⟨by decide, by decide, by decide⟩, ⟨_, rfl, fun h => ?_⟩, ⟨_, rfl, fun h => ?_⟩⟩
  · exact absurd h.different (by decide)
  · exact absurd h.different (by decide)

end Radapter.Configurator
