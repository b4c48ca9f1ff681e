import Radapter.Scada.Build

/-!
# What `resolve` does

A resolved config is the config with objects in it: those that were built for the names it refers
to, and those of the factories inside it. This file has the rule for `resolve`, which can be given
any invariant that the objects it refers to keep.
-/

namespace Radapter.Scada

open Library Lua

variable {ω : Type}

/-- The object of a name, from the calls so far. -/
def builtBy (calls : List (Call ω)) (name : LuaKey) : Option ω :=
  (calls.find? (fun c => c.name = some name)).map Call.result

/-- More calls do not change the object of a name. -/
theorem builtBy_of_prefix {calls more : List (Call ω)} (h : calls <+: more) {name : LuaKey} {o : ω}
    (ho : builtBy calls name = some o) : builtBy more name = some o := by
  obtain ⟨rest, rfl⟩ := h
  obtain ⟨c, hc, rfl⟩ := Option.map_eq_some_iff.mp ho
  rw [builtBy, List.find?_append, hc]
  rfl

/-- An object is the result of a call for its name. -/
theorem exists_of_builtBy {calls : List (Call ω)} {name : LuaKey} {o : ω}
    (h : builtBy calls name = some o) : ∃ c ∈ calls, c.name = some name ∧ c.result = o := by
  obtain ⟨c, hc, rfl⟩ := Option.map_eq_some_iff.mp h
  exact ⟨c, List.mem_of_find?_eq_some hc, by simpa using List.find?_some hc, rfl⟩

section Resolves

variable (env : Environment ω) (calls : List (Call ω))

mutual

/-- The second value is the first with objects for the references in it, and for the tables that
stand for objects, each made by one of the calls. -/
def Resolves : LuaValue → Resolved ω → Prop
  | .table fields, r =>
      match refName fields with
      | some name => ∃ o, r = .object o ∧ builtBy calls name = some o
      | none =>
          match env.inlineType fields with
          | some factory => ∃ config o, r = .object o ∧ ResolvesField configKey fields config ∧
              ⟨none, factory, config, o⟩ ∈ calls
          | none => ∃ out, r = .table out ∧ ResolvesFields fields out
  | .nil, r => r = .value .nil
  | .boolean b, r => r = .value (.boolean b)
  | .integer n, r => r = .value (.integer n)
  | .number bits, r => r = .value (.number bits)
  | .string s, r => r = .value (.string s)
  | .bytes b, r => r = .value (.bytes b)
  | .view path, r => r = .value (.view path)

def ResolvesField (k : LuaKey) : Fields → Resolved ω → Prop
  | [], r => r = .value .nil
  | (j, v) :: rest, r => if k = j then Resolves v r else ResolvesField k rest r

def ResolvesFields : Fields → List (LuaKey × Resolved ω) → Prop
  | [], out => out = []
  | (k, v) :: rest, out => ∃ r others, out = (k, r) :: others ∧ Resolves v r ∧
      ResolvesFields rest others

end

end Resolves

variable {env : Environment ω}

mutual

/-- A value resolves also with later calls. -/
theorem Resolves.mono {calls more : List (Call ω)} (h : calls <+: more) {v : LuaValue}
    {r : Resolved ω} (hr : Resolves env calls v r) : Resolves env more v r := by
  cases v with
  | table fields =>
    rw [Resolves] at hr ⊢
    cases href : refName fields with
    | some name =>
      rw [href] at hr
      obtain ⟨o, rfl, ho⟩ := hr
      exact ⟨o, rfl, builtBy_of_prefix h ho⟩
    | none =>
      rw [href] at hr
      cases htype : env.inlineType fields with
      | some factory =>
        rw [htype] at hr
        obtain ⟨config, o, rfl, hconfig, hcall⟩ := hr
        exact ⟨config, o, rfl, hconfig.mono h, h.subset hcall⟩
      | none =>
        rw [htype] at hr
        obtain ⟨out, rfl, hout⟩ := hr
        exact ⟨out, rfl, hout.mono h⟩
  | nil => exact hr
  | boolean b => exact hr
  | integer n => exact hr
  | number bits => exact hr
  | string s => exact hr
  | bytes b => exact hr
  | view path => exact hr

/-- So does a field. -/
theorem ResolvesField.mono {calls more : List (Call ω)} (h : calls <+: more) {k : LuaKey}
    {fields : Fields} {r : Resolved ω} (hr : ResolvesField env calls k fields r) :
    ResolvesField env more k fields r := by
  cases fields with
  | nil => exact hr
  | cons f rest =>
    rw [ResolvesField] at hr ⊢
    split_ifs at hr ⊢
    · exact hr.mono h
    · exact hr.mono h

/-- So does a table. -/
theorem ResolvesFields.mono {calls more : List (Call ω)} (h : calls <+: more) {fields : Fields}
    {out : List (LuaKey × Resolved ω)} (hr : ResolvesFields env calls fields out) :
    ResolvesFields env more fields out := by
  cases fields with
  | nil => exact hr
  | cons f rest =>
    obtain ⟨r, others, rfl, hfirst, hrest⟩ := hr
    exact ⟨r, others, rfl, hfirst.mono h, hrest.mono h⟩

end

/-! ## The rule -/

/-- The state after a call of a factory. -/
def Building.logged (env : Environment ω) (name : Option LuaKey) (factory : Bytes)
    (config : Resolved ω) (s : Building ω) : Building ω :=
  { s with calls := s.calls ++ [⟨name, factory, config, env.make s.calls.length factory config⟩] }

section Rule

variable {inst : LuaKey → BuildM ω ω} {fails : Failure → Prop} {Inv : Building ω → Prop}

mutual

/-- What the objects that a config refers to keep, `resolve` keeps, and it resolves the config. -/
theorem resolve_meets
    (hcall : ∀ factory config s, Inv s → Inv (s.logged env none factory config)) {v : LuaValue}
    (hinst : ∀ name ∈ refs env v, ∀ s, Inv s → Meets fails (fun r => Inv r.2 ∧
      s.calls <+: r.2.calls ∧ builtBy r.2.calls name = some r.1) ((inst name).run s))
    {s : Building ω} (hs : Inv s) :
    Meets fails (fun r => Inv r.2 ∧ s.calls <+: r.2.calls ∧ Resolves env r.2.calls v r.1)
      ((resolve env inst v).run s) := by
  cases v with
  | table fields =>
    rw [refs] at hinst
    simp only [resolve, Resolves]
    cases href : refName fields with
    | some name =>
      rw [href] at hinst
      apply Meets.run_bind (hinst name (by simp) s hs)
      rintro o t ⟨ht, hcalls, ho⟩
      exact ⟨ht, hcalls, o, rfl, ho⟩
    | none =>
      cases htype : env.inlineType fields with
      | some factory =>
        simp only [href, htype] at hinst
        apply Meets.run_bind (resolveField_meets hcall hinst hs)
        rintro config t ⟨ht, hcalls, hconfig⟩
        have hlogged : t.calls <+: (t.logged env none factory config).calls :=
          List.prefix_append _ _
        refine ⟨hcall factory config t ht, hcalls.trans hlogged, config, _, rfl,
          hconfig.mono hlogged, ?_⟩
        simp
      | none =>
        simp only [href, htype] at hinst
        apply Meets.run_bind (resolveFields_meets hcall hinst hs)
        rintro out t ⟨ht, hcalls, hout⟩
        exact ⟨ht, hcalls, out, rfl, hout⟩
  | nil => exact ⟨hs, List.prefix_rfl, rfl⟩
  | boolean b => exact ⟨hs, List.prefix_rfl, rfl⟩
  | integer n => exact ⟨hs, List.prefix_rfl, rfl⟩
  | number bits => exact ⟨hs, List.prefix_rfl, rfl⟩
  | string s => exact ⟨hs, List.prefix_rfl, rfl⟩
  | bytes b => exact ⟨hs, List.prefix_rfl, rfl⟩
  | view path => exact ⟨hs, List.prefix_rfl, rfl⟩

/-- A field resolves if every object that it refers to can be made, whatever is kept meanwhile. -/
theorem resolveField_meets
    (hcall : ∀ factory config s, Inv s → Inv (s.logged env none factory config)) {k : LuaKey}
    {fields : Fields}
    (hinst : ∀ name ∈ refsField env k fields, ∀ s, Inv s → Meets fails (fun r => Inv r.2 ∧
      s.calls <+: r.2.calls ∧ builtBy r.2.calls name = some r.1) ((inst name).run s))
    {s : Building ω} (hs : Inv s) :
    Meets fails (fun r => Inv r.2 ∧ s.calls <+: r.2.calls ∧
      ResolvesField env r.2.calls k fields r.1) ((resolveField env inst k fields).run s) := by
  cases fields with
  | nil => exact ⟨hs, List.prefix_rfl, rfl⟩
  | cons f rest =>
    simp only [refsField] at hinst
    simp only [resolveField, ResolvesField]
    split_ifs at hinst ⊢
    · exact resolve_meets hcall hinst hs
    · exact resolveField_meets hcall hinst hs

/-- So does a table, field by field. -/
theorem resolveFields_meets
    (hcall : ∀ factory config s, Inv s → Inv (s.logged env none factory config)) {fields : Fields}
    (hinst : ∀ name ∈ refsFields env fields, ∀ s, Inv s → Meets fails (fun r => Inv r.2 ∧
      s.calls <+: r.2.calls ∧ builtBy r.2.calls name = some r.1) ((inst name).run s))
    {s : Building ω} (hs : Inv s) :
    Meets fails (fun r => Inv r.2 ∧ s.calls <+: r.2.calls ∧
      ResolvesFields env r.2.calls fields r.1) ((resolveFields env inst fields).run s) := by
  cases fields with
  | nil => exact ⟨hs, List.prefix_rfl, rfl⟩
  | cons f rest =>
    simp only [refsFields, List.mem_append] at hinst
    simp only [resolveFields]
    apply Meets.run_bind (resolve_meets hcall (fun name h => hinst name (Or.inl h)) hs)
    rintro r t ⟨ht, hcalls, hr⟩
    apply Meets.run_bind (resolveFields_meets hcall (fun name h => hinst name (Or.inr h)) ht)
    rintro out u ⟨hu, hcalls', hout⟩
    exact ⟨hu, hcalls.trans hcalls', r, out, rfl, hr.mono hcalls', hout⟩

end

end Rule

end Radapter.Scada
