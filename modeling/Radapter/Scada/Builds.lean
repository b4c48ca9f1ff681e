import Radapter.Scada.Resolve

/-!
# What `build` makes

Every object is made by one call of its factory, after the calls for the objects it refers to. The
objects in `building` are those that wait for others, so there are never more of them than objects;
an object that is asked for while it waits is part of a cycle.
-/

namespace Radapter.Scada

open Library Lua

variable {ω : Type} {env : Environment ω}

/-! ## Calls -/

/-- The first call for a name makes its object. -/
theorem builtBy_concat (calls : List (Call ω)) (c : Call ω) (name : LuaKey) :
    builtBy (calls ++ [c]) name =
      (builtBy calls name).or (if c.name = some name then some c.result else none) := by
  rw [builtBy, List.find?_append, builtBy]
  cases hfind : calls.find? (fun c => c.name = some name) with
  | some found => rfl
  | none =>
    by_cases hname : c.name = some name
    · simp [hname]
    · simp [hname]

/-- A name has no object exactly if no call was for it. -/
theorem builtBy_eq_none {calls : List (Call ω)} {name : LuaKey} :
    builtBy calls name = none ↔ ∀ c ∈ calls, c.name ≠ some name := by
  simp [builtBy]

/-- A place in a list with one more element is the last one or a place before it. -/
private theorem concat_eq_append_cons {α : Type} {l before after : List α} {a b : α}
    (h : l ++ [a] = before ++ b :: after) :
    (before = l ∧ b = a ∧ after = []) ∨ ∃ rest, after = rest ++ [a] ∧ l = before ++ b :: rest := by
  rcases List.eq_nil_or_concat after with rfl | ⟨rest, last, rfl⟩
  · obtain ⟨hl, ha⟩ := List.append_inj' h rfl
    exact Or.inl ⟨hl.symm, (List.singleton_inj.mp ha).symm, rfl⟩
  · rw [List.concat_eq_append, ← List.cons_append, ← List.append_assoc] at h
    obtain ⟨hl, ha⟩ := List.append_inj' h rfl
    exact Or.inr ⟨rest, by rw [List.concat_eq_append, List.singleton_inj.mp ha], hl⟩

mutual

/-- The objects that a resolved config refers to have been built. -/
theorem exists_of_mem_refs {calls : List (Call ω)} {v : LuaValue} {r : Resolved ω}
    (h : Resolves env calls v r) {name : LuaKey} (hname : name ∈ refs env v) :
    ∃ c ∈ calls, c.name = some name := by
  cases v with
  | table fields =>
    rw [Resolves] at h
    rw [refs] at hname
    cases href : refName fields with
    | some other =>
      simp only [href, List.mem_singleton] at h hname
      obtain ⟨o, -, ho⟩ := h
      obtain ⟨c, hc, hcname, -⟩ := exists_of_builtBy ho
      exact ⟨c, hc, by rw [hcname, hname]⟩
    | none =>
      cases htype : env.inlineType fields with
      | some factory =>
        simp only [href, htype] at h hname
        obtain ⟨config, o, -, hconfig, -⟩ := h
        exact exists_of_mem_refsField hconfig hname
      | none =>
        simp only [href, htype] at h hname
        obtain ⟨out, -, hout⟩ := h
        exact exists_of_mem_refsFields hout hname
  | nil => cases hname
  | boolean b => cases hname
  | integer n => cases hname
  | number bits => cases hname
  | string s => cases hname
  | bytes b => cases hname
  | view path => cases hname

/-- Every reference in a field was made by a call, if the field resolves. -/
theorem exists_of_mem_refsField {calls : List (Call ω)} {k : LuaKey} {fields : Fields}
    {r : Resolved ω} (h : ResolvesField env calls k fields r) {name : LuaKey}
    (hname : name ∈ refsField env k fields) : ∃ c ∈ calls, c.name = some name := by
  cases fields with
  | nil => cases hname
  | cons f rest =>
    rw [ResolvesField] at h
    rw [refsField] at hname
    split_ifs at h hname
    · exact exists_of_mem_refs h hname
    · exact exists_of_mem_refsField h hname

/-- So was every reference in a table. -/
theorem exists_of_mem_refsFields {calls : List (Call ω)} {fields : Fields}
    {out : List (LuaKey × Resolved ω)} (h : ResolvesFields env calls fields out) {name : LuaKey}
    (hname : name ∈ refsFields env fields) : ∃ c ∈ calls, c.name = some name := by
  cases fields with
  | nil => cases hname
  | cons f rest =>
    obtain ⟨r, others, -, hfirst, hrest⟩ := h
    rw [refsFields, List.mem_append] at hname
    rcases hname with hname | hname
    · exact exists_of_mem_refs hfirst hname
    · exact exists_of_mem_refsFields hrest hname

end

/-! ## Sound states -/

/-- The call for `k` is one of its factory, with its config and objects for the references in it
that the calls before have made. -/
def Project.MadeFrom (p : Project) (env : Environment ω) (before : List (Call ω)) (k : LuaKey)
    (call : Call ω) : Prop :=
  ∃ entry fields out, rawget p.objects k = .table entry ∧
    env.function (rawget entry typeKey) = some call.factory ∧
    (∀ j ∈ refs env (configOf entry), ∃ c ∈ before, c.name = some j) ∧
    configOf entry = .table fields ∧ ResolvesFields env before fields out ∧
    call.config = .table (withName k out)

/-- The state of a build between two objects. -/
structure Sound (env : Environment ω) (p : Project) (s : Building ω) : Prop where
  built : ∀ k, s.built k = builtBy s.calls k
  once : (s.calls.filterMap Call.name).Nodup
  idle : ∀ k, s.building k = true → s.built k = none
  made : ∀ before call after k, s.calls = before ++ call :: after → call.name = some k →
    p.MadeFrom env before k call

namespace Sound

variable {p : Project} {s : Building ω} {name : LuaKey}

/-- Before the first object nothing is built. -/
theorem empty (env : Environment ω) (p : Project) : Sound env p {} where
  built := fun _ => rfl
  once := List.nodup_nil
  idle := fun _ _ => rfl
  made := by
    intro before call after k h
    cases before <;> cases h

/-- An object inside a config leaves the named ones as they are. -/
theorem logged (hs : Sound env p s) (factory : Bytes) (config : Resolved ω) :
    Sound env p (s.logged env none factory config) where
  built := by
    intro k
    have hsame : s.built k = builtBy s.calls k := hs.built k
    rw [Building.logged, builtBy_concat, if_neg (by simp), Option.or_none]
    exact hsame
  once := by
    simpa [Building.logged, List.filterMap_append] using hs.once
  idle := hs.idle
  made := by
    intro before call after k h hname
    rcases concat_eq_append_cons h with ⟨-, rfl, -⟩ | ⟨rest, -, hcalls⟩
    · cases hname
    · exact hs.made before call rest k hcalls hname

/-- An object that is not built yet may be begun. -/
theorem start (hs : Sound env p s) (hbuilt : s.built name = none) :
    Sound env p (s.start name) where
  built := hs.built
  once := hs.once
  idle := by
    intro k hk
    by_cases hkey : k = name
    · rw [hkey]
      exact hbuilt
    · simp only [Building.start, Function.update_of_ne hkey] at hk
      exact hs.idle k hk
  made := hs.made

/-- A named object is made. -/
theorem finish (hs : Sound env p s) (hbuilding : s.building name = true) {factory : Bytes}
    {config : Resolved ω} (hmade : p.MadeFrom env s.calls name
      ⟨some name, factory, config, env.make s.calls.length factory config⟩) :
    Sound env p ((s.logged env (some name) factory config).finish name
      (env.make s.calls.length factory config)) := by
  have hnone : builtBy s.calls name = none := by
    rw [← hs.built]
    exact hs.idle name hbuilding
  refine ⟨?_, ?_, ?_, ?_⟩
  · intro k
    simp only [Building.finish, Building.logged, builtBy_concat]
    by_cases hkey : k = name
    · rw [hkey, Function.update_self, hnone]
      simp
    · have hother : (some name : Option LuaKey) ≠ some k := by simpa using fun h => hkey h.symm
      rw [Function.update_of_ne hkey, if_neg hother, Option.or_none]
      exact hs.built k
  · simp only [Building.finish, Building.logged, List.filterMap_append]
    rw [List.nodup_append]
    refine ⟨hs.once, by simp, ?_⟩
    rintro k hk k' hk' rfl
    obtain ⟨c, hc, hname⟩ := List.mem_filterMap.mp hk
    obtain rfl : k = name := by simpa using hk'
    exact builtBy_eq_none.mp hnone c hc hname
  · intro k hk
    by_cases hkey : k = name
    · rw [hkey] at hk
      simp [Building.finish] at hk
    · simp only [Building.finish, Building.logged, Function.update_of_ne hkey] at hk ⊢
      exact hs.idle k hk
  · intro before call after k h hname
    rcases concat_eq_append_cons h with ⟨rfl, rfl, -⟩ | ⟨rest, -, hcalls⟩
    · cases hname
      exact hmade
    · exact hs.made before call rest k hcalls hname

end Sound

/-! ## Instantiating -/

/-- A name with an entry is among the objects. -/
theorem mem_of_entry {objects entry : Fields} {name : LuaKey}
    (h : rawget objects name = .table entry) : (name, .table entry) ∈ objects := by
  rw [← h]
  exact mem_of_rawget (by rw [h]; exact nofun)

namespace Project

variable (p : Project)

/-- How many objects are not waiting for others. -/
def free (building : LuaKey → Bool) : ℕ :=
  (p.objects.map Prod.fst).countP (fun k => !building k)

/-- References from the name lead to objects that can be made, and to none that waits or reaches
itself. -/
def Clear (env : Environment ω) (building : LuaKey → Bool) (name : LuaKey) : Prop :=
  ∀ k, Relation.ReflTransGen (p.Refers env) name k →
    p.Makes env k ∧ building k = false ∧ ¬ p.Reaches env k k

/-- How `instantiate` may fail. -/
def MayFail (env : Environment ω) (fuel : ℕ) (building : LuaKey → Bool) (name : LuaKey) :
    Failure → Prop
  | .outOfFuel => fuel ≤ p.free building
  | .raised _ => ¬ p.Clear env building name

variable {p}

/-- An object that begins to wait is one less of those that do not. -/
private theorem countP_update {names : List LuaKey} {building : LuaKey → Bool} {name : LuaKey}
    (hname : name ∈ names) (hidle : building name = false) :
    names.countP (fun k => !Function.update building name true k) <
      names.countP (fun k => !building k) := by
  have hle (l : List LuaKey) : l.countP (fun k => !Function.update building name true k) ≤
      l.countP (fun k => !building k) := by
    refine List.countP_mono_left fun k _ hk => ?_
    by_cases hkey : k = name
    · simp [hkey] at hk
    · rwa [Function.update_of_ne hkey] at hk
  induction names with
  | nil => cases hname
  | cons k rest ih =>
    rw [List.countP_cons, List.countP_cons]
    by_cases hkey : k = name
    · have hrest := hle rest
      simp only [hkey, Function.update_self, Bool.not_true, Bool.false_eq_true, if_false, hidle,
        Bool.not_false, if_true]
      omega
    · have hrest := ih ((List.mem_cons.mp hname).resolve_left fun h => hkey h.symm)
      rw [Function.update_of_ne hkey]
      omega

/-- An object that is made waits while those that it refers to are made. -/
theorem MayFail.of_refers {fuel : ℕ} {building : LuaKey → Bool} {name j : LuaKey}
    {entry : Fields} (hentry : rawget p.objects name = .table entry)
    (hidle : building name = false) (hj : j ∈ refs env (configOf entry)) {e : Failure}
    (h : p.MayFail env fuel (Function.update building name true) j e) :
    p.MayFail env (fuel + 1) building name e := by
  cases e with
  | outOfFuel =>
    have hname : name ∈ p.objects.map Prod.fst := List.mem_map_of_mem (mem_of_entry hentry)
    have hless := countP_update hname hidle
    have hle : fuel ≤ p.free (Function.update building name true) := h
    exact Nat.lt_of_le_of_lt hle hless
  | raised message =>
    intro hclear
    apply h
    intro k hreach
    have hrefers : p.Refers env name j := ⟨entry, hentry, hj⟩
    obtain ⟨hmakes, hwaits, hself⟩ := hclear k (Relation.ReflTransGen.head hrefers hreach)
    refine ⟨hmakes, ?_, hself⟩
    have hne : k ≠ name := by
      rintro rfl
      exact hself (Relation.TransGen.head' hrefers hreach)
    rw [Function.update_of_ne hne]
    exact hwaits

/-- A name that cannot be made is not clear. -/
theorem not_clear {building : LuaKey → Bool} {name : LuaKey} (h : ¬ p.Makes env name) :
    ¬ p.Clear env building name :=
  fun hclear => h (hclear name Relation.ReflTransGen.refl).1

end Project

/-- What a resolved config is a copy of. -/
theorem exists_of_resolves_table {calls : List (Call ω)} {v : LuaValue} (hv : IsPlain env v)
    {r : Resolved ω} (h : Resolves env calls v r) : ∃ fields out, v = .table fields ∧
      r = .table out ∧ ResolvesFields env calls fields out := by
  obtain ⟨fields, rfl, href, htype⟩ := hv
  simp only [Resolves, href, htype] at h
  obtain ⟨out, rfl, hout⟩ := h
  exact ⟨fields, out, rfl, rfl, hout⟩

/-- A sound state in which the objects given wait. -/
def Waiting (env : Environment ω) (p : Project) (building : LuaKey → Bool) (s : Building ω) :
    Prop :=
  Sound env p s ∧ s.building = building

/-- What `instantiate` does if it does not fail. -/
def Instantiates (env : Environment ω) (p : Project) (name : LuaKey) (s : Building ω)
    (r : ω × Building ω) : Prop :=
  Waiting env p s.building r.2 ∧ s.calls <+: r.2.calls ∧ builtBy r.2.calls name = some r.1

/-- An object is made when the objects that it refers to can be. -/
private theorem make_meets {p : Project} (hplain : p.PlainConfigs env) {fails : Failure → Prop}
    {inst : LuaKey → BuildM ω ω} {name : LuaKey} {s : Building ω} (hs : Sound env p s)
    (hbuilt : s.built name = none) (hidle : s.building name = false) {entry : Fields}
    (hentry : rawget p.objects name = .table entry) {factory : Bytes}
    (hfunction : env.function (rawget entry typeKey) = some factory)
    (hinst : ∀ j ∈ refs env (configOf entry), ∀ t, Waiting env p (s.start name).building t →
      Meets fails (Instantiates env p j t) ((inst j).run t)) :
    Meets fails (Instantiates env p name s) ((do
      set (s.start name)
      let cfg ← resolve env inst (configOf entry)
      match cfg with
      | .table fields => do
          let obj ← callFactory env (some name) factory (.table (withName name fields))
          modify (Building.finish name obj)
          return obj
      | _ => throw (.raised [.text "attempt to index a value that is not a table"]) :
      BuildM ω ω).run s) := by
  have hset : Meets fails (fun r : PUnit × Building ω => r.2 = s.start name)
      ((set (s.start name) : BuildM ω PUnit).run s) := rfl
  apply hset.run_bind
  rintro - _ rfl
  have hcall : ∀ factory config t, Waiting env p (s.start name).building t →
      Waiting env p (s.start name).building (t.logged env none factory config) :=
    fun factory config t ht => ⟨ht.1.logged factory config, ht.2⟩
  have hkeep : ∀ j ∈ refs env (configOf entry), ∀ t, Waiting env p (s.start name).building t →
      Meets fails (fun r => Waiting env p (s.start name).building r.2 ∧ t.calls <+: r.2.calls ∧
        builtBy r.2.calls j = some r.1) ((inst j).run t) := by
    intro j hj t ht
    refine (hinst j hj t ht).imp (fun _ h => h) fun r hr => ?_
    exact ⟨⟨hr.1.1, hr.1.2.trans ht.2⟩, hr.2⟩
  have hresolve := resolve_meets hcall hkeep ⟨hs.start hbuilt, rfl⟩
  apply hresolve.run_bind
  rintro cfg t ⟨⟨ht, hbuilding⟩, hcalls, hcfg⟩
  obtain ⟨fields, out, hfields, rfl, hout⟩ :=
    exists_of_resolves_table (hplain name entry hentry) hcfg
  have hwaits : t.building name = true := by
    rw [hbuilding]
    exact Function.update_self name true s.building
  have hmade : p.MadeFrom env t.calls name ⟨some name, factory, .table (withName name out),
      env.make t.calls.length factory (.table (withName name out))⟩ :=
    ⟨entry, fields, out, hentry, hfunction, fun j hj => exists_of_mem_refs hcfg hj, hfields, hout,
      rfl⟩
  have hnone : builtBy t.calls name = none := by
    rw [← ht.built]
    exact ht.idle name hwaits
  refine ⟨⟨ht.finish hwaits hmade, ?_⟩, hcalls.trans (List.prefix_append _ _), ?_⟩
  · -- the name waits no more
    show Function.update t.building name false = s.building
    rw [hbuilding, Building.start, Function.update_idem, ← hidle, Function.update_eq_self]
  · show builtBy (t.calls ++ [_]) name = _
    rw [builtBy_concat, hnone, if_pos rfl]
    rfl

/-- `instantiate` gives the object of the name and leaves a sound state, or fails as it may. -/
theorem instantiate_meets {p : Project} (hplain : p.PlainConfigs env) (fuel : ℕ) {name : LuaKey}
    {s : Building ω} (hs : Sound env p s) :
    Meets (p.MayFail env fuel s.building name) (Instantiates env p name s)
      ((instantiate env p.objects fuel name).run s) := by
  induction fuel generalizing name s with
  | zero => exact Nat.zero_le _
  | succ fuel ih =>
    rw [instantiate]
    simp only [StateT.run_bind, StateT.run_get, pure_bind]
    cases hbuilt : s.built name with
    | some existing =>
      refine ⟨⟨hs, rfl⟩, List.prefix_rfl, ?_⟩
      rw [← hs.built, hbuilt]
    | none =>
      by_cases hbuilding : s.building name = true
      · simp only [hbuilding, if_true]
        intro hclear
        have hidle := (hclear name Relation.ReflTransGen.refl).2.1
        rw [hbuilding] at hidle
        cases hidle
      have hidle : s.building name = false := Bool.eq_false_iff.mpr hbuilding
      simp only [hidle, Bool.false_eq_true, if_false]
      cases hentry : rawget p.objects name with
      | table entry =>
        cases hfunction : env.function (rawget entry typeKey) with
        | none =>
          simp only [hfunction]
          apply Project.not_clear
          rintro ⟨entry', factory, hentry', hfactory⟩
          obtain rfl := LuaValue.table.inj (hentry.symm.trans hentry')
          rw [hfunction] at hfactory
          cases hfactory
        | some factory =>
          simp only [hfunction]
          apply make_meets hplain hs hbuilt hidle hentry hfunction
          rintro j hj t ⟨ht, hwaiting⟩
          refine (ih ht).imp (fun e he => ?_) (fun _ h => h)
          rw [hwaiting] at he
          exact Project.MayFail.of_refers hentry hidle hj he
      | _ =>
        apply Project.not_clear
        rintro ⟨entry, factory, hentry', -⟩
        cases hentry.symm.trans hentry'

/-- The loop over the objects makes all of them, or fails as one of them may. -/
theorem instantiateAll_meets {p : Project} (hplain : p.PlainConfigs env) (fuel : ℕ)
    (names : List LuaKey) {s : Building ω} (hs : Sound env p s) :
    Meets (fun e => ∃ name ∈ names, p.MayFail env fuel s.building name e)
      (fun r => Sound env p r.2 ∧ s.calls <+: r.2.calls ∧
        ∀ name ∈ names, (builtBy r.2.calls name).isSome)
      ((instantiateAll env p.objects fuel names).run s) := by
  induction names generalizing s with
  | nil => exact ⟨hs, List.prefix_rfl, fun _ h => by cases h⟩
  | cons name rest ih =>
    rw [instantiateAll]
    have hfirst : Meets (fun e => ∃ n ∈ name :: rest, p.MayFail env fuel s.building n e)
        (Instantiates env p name s) ((instantiate env p.objects fuel name).run s) :=
      (instantiate_meets hplain fuel hs).imp (fun e he => ⟨name, List.mem_cons_self, he⟩)
        (fun _ h => h)
    apply hfirst.run_bind
    rintro o t ⟨⟨ht, hbuilding⟩, hcalls, hbuilt⟩
    refine (ih ht).imp ?_ ?_
    · rintro e ⟨n, hn, he⟩
      rw [hbuilding] at he
      exact ⟨n, List.mem_cons_of_mem name hn, he⟩
    · rintro ⟨⟨⟩, u⟩ ⟨hu, hcalls', hall⟩
      refine ⟨hu, hcalls.trans hcalls', ?_⟩
      rintro n hn
      rcases List.mem_cons.mp hn with rfl | hn
      · exact Option.isSome_iff_exists.mpr ⟨o, builtBy_of_prefix hcalls' hbuilt⟩
      · exact hall n hn

/-! ## Builds -/

namespace Project

variable {p : Project}

/-- All references resolve, none leads back to its object, and all types are known. -/
structure Buildable (env : Environment ω) (p : Project) : Prop where
  makes : ∀ name ∈ p.objects.map Prod.fst, p.Makes env name
  resolving : ∀ k j, p.Refers env k j → (rawget p.objects j).isTable = true
  acyclic : ∀ k, ¬ p.Reaches env k k

/-- One call is for the object, and it is made as its config says by objects made before. -/
def MadeOnce (p : Project) (env : Environment ω) (s : Building ω) (name : LuaKey) : Prop :=
  ∃ before call after, s.calls = before ++ call :: after ∧ call.name = some name ∧
    (∀ c ∈ before ++ after, c.name ≠ some name) ∧ p.MadeFrom env before name call ∧
    s.built name = some call.result

/-- The objects that a made object reaches have been made before it. -/
theorem exists_before_of_reaches {s : Building ω} (hs : Sound env p s) {k j : LuaKey}
    (h : p.Reaches env k j) {before after : List (Call ω)} {call : Call ω}
    (hcalls : s.calls = before ++ call :: after) (hname : call.name = some k) :
    ∃ c ∈ before, c.name = some j := by
  have hnext {k j : LuaKey} (hrefers : p.Refers env k j) {before after : List (Call ω)}
      {call : Call ω} (hcalls : s.calls = before ++ call :: after) (hname : call.name = some k) :
      ∃ c ∈ before, c.name = some j := by
    obtain ⟨entry, hentry, hj⟩ := hrefers
    obtain ⟨entry', -, -, hentry', -, hrefs, -⟩ := hs.made before call after k hcalls hname
    obtain rfl := LuaValue.table.inj (hentry.symm.trans hentry')
    exact hrefs j hj
  induction h with
  | single hrefers => exact hnext hrefers hcalls hname
  | tail _ hrefers ih =>
    obtain ⟨c, hc, hcname⟩ := ih
    obtain ⟨front, back, rfl⟩ := List.append_of_mem hc
    have hsplit : s.calls = front ++ c :: (back ++ call :: after) := by simpa using hcalls
    obtain ⟨c', hc', hc'name⟩ := hnext hrefers hsplit hcname
    exact ⟨c', List.mem_append_left _ hc', hc'name⟩

/-- An object that has been built was made once. -/
theorem madeOnce_of_sound {s : Building ω} (hs : Sound env p s) {name : LuaKey}
    (h : (builtBy s.calls name).isSome) : p.MadeOnce env s name := by
  obtain ⟨o, ho⟩ := Option.isSome_iff_exists.mp h
  obtain ⟨call, hcall, hname, rfl⟩ := exists_of_builtBy ho
  obtain ⟨before, after, hcalls⟩ := List.append_of_mem hcall
  refine ⟨before, call, after, hcalls, hname, ?_, hs.made before call after name hcalls hname, ?_⟩
  · have honce := hs.once
    rw [hcalls, List.filterMap_append, List.filterMap_cons_some hname] at honce
    intro c hc hcname
    have hnodup := (List.nodup_middle.mp honce)
    rw [← List.filterMap_append, List.nodup_cons] at hnodup
    exact hnodup.1 (List.mem_filterMap.mpr ⟨c, hc, hcname⟩)
  · rw [hs.built, ho]

/-- In a buildable project nothing stands in the way of an object. -/
theorem Buildable.clear (h : p.Buildable env) {name : LuaKey}
    (hname : name ∈ p.objects.map Prod.fst) : p.Clear env (fun _ => false) name := by
  intro k hreach
  refine ⟨?_, rfl, h.acyclic k⟩
  rcases Relation.ReflTransGen.cases_tail hreach with rfl | ⟨i, -, hrefers⟩
  · exact h.makes k hname
  · obtain ⟨fields, hfields⟩ := LuaValue.exists_of_isTable (h.resolving i k hrefers)
    exact h.makes k (List.mem_map_of_mem (mem_of_entry hfields))

/-- The first loop of `build` makes all objects, unless it raises for one that is in the way. -/
theorem buildObjects_meets (hplain : p.PlainConfigs env) {fuel : ℕ}
    (hfuel : p.objects.length < fuel) :
    Meets (fun e => ∃ message, e = .raised message ∧ ∃ name ∈ p.objects.map Prod.fst,
        ¬ p.Clear env (fun _ => false) name)
      (fun s => Sound env p s ∧ ∀ name ∈ p.objects.map Prod.fst, (builtBy s.calls name).isSome)
      (p.buildObjects env fuel) := by
  have hall := instantiateAll_meets hplain fuel (p.objects.map Prod.fst) (Sound.empty env p)
  rw [buildObjects]
  cases hrun : (instantiateAll env p.objects fuel (p.objects.map Prod.fst)).run {} with
  | ok r =>
    rw [hrun] at hall
    exact ⟨hall.1, hall.2.2⟩
  | error e =>
    rw [hrun] at hall
    obtain ⟨name, hname, he⟩ := hall
    cases e with
    | raised message => exact ⟨message, rfl, name, hname, he⟩
    | outOfFuel =>
      have hle : fuel ≤ p.free (fun _ => false) := he
      have hcount : p.free (fun _ => false) ≤ p.objects.length := by
        rw [free, ← List.length_map Prod.fst]
        exact List.countP_le_length
      omega

/-- The loop over the pipes always ends. -/
private theorem wirePipes_ne_outOfFuel (built : LuaKey → Option ω) (i : ℕ) (pipes : List PipeEntry)
    (wired : List (Wire ω)) : (wirePipes built i pipes wired).result ≠ .error .outOfFuel := by
  induction pipes generalizing i wired with
  | nil => exact nofun
  | cons p rest ih =>
    rw [wirePipes]
    cases p.fromName.bind built with
    | none => exact nofun
    | some source =>
      cases p.toName.bind built with
      | none => exact nofun
      | some target => exact ih (i + 1) _

/-- With fuel for more objects than there are, `build` ends. A buildable project has each of its
objects made once, after those that it refers to and from them. A project with a cycle or an unknown
reference raises before any pipe is wired. -/
theorem build_builds (hplain : p.PlainConfigs env) {fuel : ℕ} (hfuel : p.objects.length < fuel) :
    (p.build env fuel).result ≠ .error .outOfFuel ∧
    (p.Buildable env → ∃ s, p.buildObjects env fuel = .ok s ∧
      p.build env fuel = wirePipes s.built 1 p.pipes [] ∧
      ∀ name ∈ p.objects.map Prod.fst, p.MadeOnce env s name) ∧
    ((∃ k ∈ p.objects.map Prod.fst, p.Reaches env k k ∨
        ∃ j, p.Reaches env k j ∧ (rawget p.objects j).isTable = false) →
      ∃ message, p.build env fuel = ⟨[], .error (.raised message)⟩) := by
  have hmeets := buildObjects_meets hplain hfuel
  rw [build]
  cases hobjects : p.buildObjects env fuel with
  | error e =>
    rw [hobjects] at hmeets
    obtain ⟨message, rfl, name, hname, hclear⟩ := hmeets
    refine ⟨nofun, ?_, fun _ => ⟨message, rfl⟩⟩
    intro hbuildable
    exact absurd (hbuildable.clear hname) hclear
  | ok s =>
    rw [hobjects] at hmeets
    obtain ⟨hs, hbuilt⟩ := hmeets
    refine ⟨wirePipes_ne_outOfFuel _ _ _ _, fun _ => ⟨s, rfl, rfl, ?_⟩, ?_⟩
    · intro name hname
      exact madeOnce_of_sound hs (hbuilt name hname)
    · -- every object has been made, after all that it reaches
      rintro ⟨k, hk, hreach⟩
      obtain ⟨before, call, after, hcalls, hname, honce, -⟩ :=
        madeOnce_of_sound hs (hbuilt k hk)
      rcases hreach with hself | ⟨j, hj, hunknown⟩
      · obtain ⟨c, hc, hcname⟩ := exists_before_of_reaches hs hself hcalls hname
        exact absurd hcname (honce c (List.mem_append_left _ hc))
      · obtain ⟨c, hc, hcname⟩ := exists_before_of_reaches hs hj hcalls hname
        obtain ⟨front, back, rfl⟩ := List.append_of_mem hc
        obtain ⟨entry, -, -, hentry, -⟩ := hs.made front c (back ++ call :: after) j
          (by simpa using hcalls) hcname
        rw [hentry] at hunknown
        cases hunknown

/-- One factory, which numbers its objects. -/
def counting : Environment ℕ where
  isFunction := fun name => name = [84]
  make := fun n _ _ => n

/-- An object `a` whose config refers to `b`, and `b` without a config. -/
def twoObjects : Project where
  objects := [
    (.string [97], .table [(typeKey, .string [84]),
      (configKey, .table [(.string [120], .table [(refKey, .string [98])])])]),
    (.string [98], .table [(typeKey, .string [84])])]
  pipes := []

/-- In the sample, `a` refers to `b` and nothing else refers to anything. -/
private theorem refers_twoObjects {k j : LuaKey} (h : twoObjects.Refers counting k j) :
    k = .string [97] ∧ j = .string [98] := by
  obtain ⟨entry, hentry, hj⟩ := h
  rcases List.mem_cons.mp (mem_of_entry hentry) with hfirst | hmem
  · obtain ⟨rfl, hentry⟩ := Prod.mk.inj hfirst
    obtain rfl := LuaValue.table.inj hentry
    exact ⟨rfl, List.mem_singleton.mp hj⟩
  · obtain ⟨rfl, hentry⟩ := Prod.mk.inj (List.mem_singleton.mp hmem)
    obtain rfl := LuaValue.table.inj hentry
    cases hj

/-- The object `b` is made before `a`, which is given it. -/
theorem build_builds_twoObjects : ∃ s, twoObjects.buildObjects counting 3 = .ok s ∧
    twoObjects.MadeOnce counting s (.string [97]) := by
  have hplain : twoObjects.PlainConfigs counting := by
    intro name entry hentry
    rcases List.mem_cons.mp (mem_of_entry hentry) with hfirst | hmem
    · obtain rfl := LuaValue.table.inj (Prod.mk.inj hfirst).2
      exact ⟨_, rfl, rfl, rfl⟩
    · obtain rfl := LuaValue.table.inj (Prod.mk.inj (List.mem_singleton.mp hmem)).2
      exact ⟨_, rfl, rfl, rfl⟩
  have hbuildable : twoObjects.Buildable counting := by
    refine ⟨?_, ?_, ?_⟩
    · intro name hname
      rcases List.mem_cons.mp hname with rfl | hname
      · exact ⟨_, _, rfl, rfl⟩
      · obtain rfl := List.mem_singleton.mp hname
        exact ⟨_, _, rfl, rfl⟩
    · intro k j h
      rw [(refers_twoObjects h).2]
      rfl
    · intro k h
      have hends {j : LuaKey} (h : twoObjects.Reaches counting k j) :
          k = .string [97] ∧ j = .string [98] := by
        induction h with
        | single h => exact refers_twoObjects h
        | tail _ h ih => exact ⟨ih.1, (refers_twoObjects h).2⟩
      obtain ⟨ha, hb⟩ := hends h
      rw [ha] at hb
      cases hb
  have hfuel : twoObjects.objects.length < 3 := by decide
  obtain ⟨s, hs, -, hmade⟩ := (build_builds hplain hfuel).2.1 hbuildable
  exact ⟨s, hs, hmade _ (by decide)⟩

end Project

end Radapter.Scada
