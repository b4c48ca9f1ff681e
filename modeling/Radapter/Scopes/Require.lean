import Radapter.Library.Scoped
import Radapter.Text

/-!
# Where a module is loaded from

`require` points the globals `SCRIPT_PATH` and `SCRIPT_DIR` at the file of a module while its code
runs, and puts back what they were when the code has returned or raised an error. The code of a
module may require others, and it may suspend its fiber; the fibers that run meanwhile load modules
too, and set the same two globals.
-/

namespace Radapter.Scopes

open Library

/-- The two globals; none is `nil`. -/
structure Globals where
  SCRIPT_PATH : Option Bytes
  SCRIPT_DIR : Option Bytes
  deriving DecidableEq

/-- `path:match("^(.-)[/\\][^/\\]*$") or "."`. -/
def scriptDir (path : Bytes) : Bytes :=
  match path.reverse.dropWhile (fun b => b ≠ 47 ∧ b ≠ 92) with
  | [] => [46]
  | _ :: before => before.reverse

/-- The globals for the file of a module. -/
def globalsOf (path : Bytes) : Globals := ⟨some path, some (scriptDir path)⟩

/-- The state of the runtime, as far as `require` deals with it. -/
structure Runtime where
  globals : Scoped.State ℕ Globals
  /-- The modules in `package.loaded`. -/
  loaded : List Bytes
  /-- The modules whose code each fiber is running, the innermost first. -/
  loading : ℕ → List Bytes

/-- Before any call of `require`. -/
def Runtime.start (before : Globals) (loaded : List Bytes) (fiber : ℕ) : Runtime :=
  ⟨Scoped.start before fiber, loaded, fun _ => []⟩

/-- What the fiber that runs does. -/
inductive Event where
  /-- It calls `require`. -/
  | require (name : Bytes)
  /-- The code of the module that it is loading returns. -/
  | returned
  /-- The code of that module raises an error, or cannot be compiled. -/
  | failed
  /-- It is suspended or done, and another fiber goes on. -/
  | resume (fiber : ℕ)
  deriving DecidableEq

/-- `package.searchpath(name, package.path)`. -/
abbrev Searchpath := Bytes → Option Bytes

variable (searchpath : Searchpath)

/-- The end of `require` for the module that the running fiber is loading: the globals are put
back. -/
def finish (s : Runtime) (loaded : List Bytes → Bytes → List Bytes) : Option Runtime :=
  match s.loading s.globals.running with
  | [] => none
  | name :: outer =>
      (Scoped.leave s.globals).map fun globals =>
        ⟨globals, loaded s.loaded name, Function.update s.loading s.globals.running outer⟩

/-- One step. A module that no file is found for has its code run, if there is any, as the code of
the module that requires it. A module that is loaded already has no code run, but the globals are
set and put back. An error goes on into the code of the module outside, which may or may not catch
it. -/
def load (s : Runtime) : Event → Option Runtime
  | .require name =>
      match searchpath name with
      | none => some s
      | some path =>
          if name ∈ s.loaded then
            (Scoped.leave (Scoped.enter s.globals (globalsOf path))).map fun globals =>
              { s with globals := globals }
          else
            some { s with
              globals := Scoped.enter s.globals (globalsOf path)
              loading := Function.update s.loading s.globals.running
                (name :: s.loading s.globals.running) }
  | .returned => finish s (fun loaded name => name :: loaded)
  | .failed => finish s (fun loaded _ => loaded)
  | .resume fiber => some { s with globals := Scoped.switch s.globals fiber }

/-- The code of a module runs with the globals of its own file, and when no module is being loaded
they are what they were. -/
structure OwnFile (before : Globals) (s : Runtime) : Prop where
  inside : ∀ name outer, s.loading s.globals.running = name :: outer →
    ∃ path, searchpath name = some path ∧ s.globals.current = globalsOf path
  after : (∀ fiber, s.loading fiber = []) → s.globals.current = before

/-- A fiber goes on inside a module only if its load is the newest of all that have not ended. -/
def NewestLoad (s : Runtime) : Event → Prop
  | .resume fiber => s.loading fiber = [] ∨ s.globals.order.head? = some fiber
  | _ => True

instance (s : Runtime) : (e : Event) → Decidable (NewestLoad s e)
  | .resume fiber =>
      inferInstanceAs (Decidable (s.loading fiber = [] ∨ s.globals.order.head? = some fiber))
  | .require _ => isTrue trivial
  | .returned => isTrue trivial
  | .failed => isTrue trivial

/-- What a step does to the globals. -/
def retarget (s : Runtime) : Event → Scoped.Op ℕ Globals
  | .require name =>
      match searchpath name with
      | none => .skip
      | some path => if name ∈ s.loaded then .skip else .enter (globalsOf path)
  | .returned => .leave
  | .failed => .leave
  | .resume fiber => .switch fiber

/-- Each fiber has set the globals for the modules that it is loading. -/
def Matching (s : Runtime) : Prop :=
  ∀ fiber, (s.globals.frames fiber).map (fun frame => some frame.own) =
    (s.loading fiber).map (fun name => (searchpath name).map globalsOf)

/-! ## What a step does -/

section Steps

variable {searchpath} {s t : Runtime} {e : Event}

/-- The end of a load ends the innermost scope of its fiber. -/
theorem finish_cases {loaded : List Bytes → Bytes → List Bytes} (h : finish s loaded = some t) :
    ∃ name outer, s.loading s.globals.running = name :: outer ∧
      Scoped.leave s.globals = some t.globals ∧
      t.loading = Function.update s.loading s.globals.running outer := by
  unfold finish at h
  split at h
  · cases h
  · next name outer hloading =>
    obtain ⟨globals, hleave, rfl⟩ := Option.map_eq_some_iff.mp h
    exact ⟨name, outer, hloading, hleave, rfl⟩

/-- A step changes the globals as a scope would. -/
theorem retarget_of_load (h : load searchpath s e = some t) :
    Scoped.apply s.globals (retarget searchpath s e) = some t.globals := by
  cases e with
  | require name =>
    simp only [load] at h
    simp only [retarget]
    cases hpath : searchpath name with
    | none =>
      simp only [hpath] at h
      obtain rfl := Option.some.inj h
      rfl
    | some path =>
      simp only [hpath, Scoped.leave_enter, Option.map_some] at h
      by_cases hname : name ∈ s.loaded
      · simp only [if_pos hname] at h ⊢
        obtain rfl := Option.some.inj h
        rfl
      · simp only [if_neg hname] at h ⊢
        obtain rfl := Option.some.inj h
        rfl
  | returned =>
    simp only [load] at h
    obtain ⟨name, outer, -, hleave, -⟩ := finish_cases h
    exact hleave
  | failed =>
    simp only [load] at h
    obtain ⟨name, outer, -, hleave, -⟩ := finish_cases h
    exact hleave
  | resume fiber =>
    obtain rfl := Option.some.inj h
    rfl

namespace Matching

/-- It keeps the scopes in agreement with the loads. -/
theorem finish (hs : Matching searchpath s) {loaded : List Bytes → Bytes → List Bytes}
    (h : finish s loaded = some t) : Matching searchpath t := by
  obtain ⟨name, outer, hloading, hleave, houter⟩ := finish_cases h
  have hrunning := hs s.globals.running
  rw [hloading] at hrunning
  obtain ⟨frame, rest, hframes, -, -, hrest, -⟩ := Scoped.leave_cases hleave
  rw [hframes] at hrunning
  intro fiber
  rw [houter, hrest]
  by_cases hfiber : fiber = s.globals.running
  · subst hfiber
    rw [Function.update_self, Function.update_self]
    exact (List.cons_eq_cons.mp hrunning).2
  · rw [Function.update_of_ne hfiber, Function.update_of_ne hfiber]
    exact hs fiber

/-- So does every step. -/
theorem load (hs : Matching searchpath s) (h : load searchpath s e = some t) :
    Matching searchpath t := by
  cases e with
  | require name =>
    simp only [Scopes.load] at h
    cases hpath : searchpath name with
    | none =>
      simp only [hpath] at h
      obtain rfl := Option.some.inj h
      exact hs
    | some path =>
      simp only [hpath, Scoped.leave_enter, Option.map_some] at h
      by_cases hname : name ∈ s.loaded
      · rw [if_pos hname] at h
        obtain rfl := Option.some.inj h
        exact hs
      · rw [if_neg hname] at h
        obtain rfl := Option.some.inj h
        intro fiber
        by_cases hfiber : fiber = s.globals.running
        · subst hfiber
          simp only [Scoped.enter, Function.update_self, List.map_cons, hpath, Option.map_some,
            hs s.globals.running]
        · simp only [Scoped.enter, Function.update_of_ne hfiber]
          exact hs fiber
  | returned =>
    simp only [Scopes.load] at h
    exact hs.finish h
  | failed =>
    simp only [Scopes.load] at h
    exact hs.finish h
  | resume fiber =>
    obtain rfl := Option.some.inj h
    exact hs

/-- A fiber that loads nothing has set nothing. -/
theorem frames_eq_nil_iff (hs : Matching searchpath s) (fiber : ℕ) :
    s.globals.frames fiber = [] ↔ s.loading fiber = [] := by
  have hfiber := congrArg List.length (hs fiber)
  rw [List.length_map, List.length_map] at hfiber
  rw [← List.length_eq_zero_iff, ← List.length_eq_zero_iff, hfiber]

/-- The innermost module is the one that the globals have been set for last. -/
theorem ownFile_iff (hs : Matching searchpath s) (before : Globals) :
    OwnFile searchpath before s ↔ Scoped.Own s.globals ∧ Scoped.Restored before s.globals := by
  have hrunning := hs s.globals.running
  constructor
  · rintro ⟨hinside, hafter⟩
    refine ⟨fun frame rest hframes => ?_, fun hnone => ?_⟩
    · cases hloading : s.loading s.globals.running with
      | nil =>
        rw [(hs.frames_eq_nil_iff _).mpr hloading] at hframes
        cases hframes
      | cons name outer =>
        obtain ⟨path, hpath, hcurrent⟩ := hinside name outer hloading
        rw [hframes, hloading, List.map_cons, List.map_cons, hpath] at hrunning
        rw [hcurrent]
        exact (Option.some.inj (List.cons_eq_cons.mp hrunning).1).symm
    · exact hafter fun fiber => (hs.frames_eq_nil_iff fiber).mp (hnone fiber)
  · rintro ⟨hown, hrestored⟩
    refine ⟨fun name outer hloading => ?_, fun hnone => ?_⟩
    · cases hframes : s.globals.frames s.globals.running with
      | nil =>
        rw [(hs.frames_eq_nil_iff _).mp hframes] at hloading
        cases hloading
      | cons frame rest =>
        rw [hframes, hloading] at hrunning
        obtain ⟨path, hpath, hset⟩ :=
          Option.map_eq_some_iff.mp (List.cons_eq_cons.mp hrunning).1.symm
        exact ⟨path, hpath, (hown frame rest hframes).trans hset.symm⟩
    · exact hrestored fun fiber => (hs.frames_eq_nil_iff fiber).mpr (hnone fiber)

end Matching

end Steps

/-! ## Runs -/

/-- In a run whose fibers go on only inside the newest load, the code of every module runs with the
globals of its own file, and the globals are restored. When the files that are loaded differ this
holds in no other run. -/
theorem ownFile_iff_newestLoad (searchpath : Searchpath) {before : Globals} {loaded : List Bytes}
    {fiber : ℕ} {events : List Event} {t : Runtime}
    (hrun : run (load searchpath) (.start before loaded fiber) events = some t) :
    (Along (load searchpath) NewestLoad (.start before loaded fiber) events →
      ∀ done u, done <+: events →
        run (load searchpath) (.start before loaded fiber) done = some u →
        OwnFile searchpath before u) ∧
    ((Scoped.entered (load searchpath) (retarget searchpath) (.start before loaded fiber)
        events).Nodup →
      (∀ done u, done <+: events →
        run (load searchpath) (.start before loaded fiber) done = some u →
        OwnFile searchpath before u) →
      Along (load searchpath) NewestLoad (.start before loaded fiber) events) := by
  have hmatching : Matching searchpath (.start before loaded fiber) := fun _ => rfl
  have hkeep : ∀ {s : Runtime} {e : Event} {t : Runtime}, Matching searchpath s →
      load searchpath s e = some t → Matching searchpath t := fun hs h => hs.load h
  have hnested : Scoped.Nested before (Runtime.start before loaded fiber).globals :=
    Scoped.nested_start before fiber
  have halong : Along (load searchpath) NewestLoad (.start before loaded fiber) events ↔
      Along (load searchpath) (fun s e => Scoped.Orderly s.globals (retarget searchpath s e))
        (.start before loaded fiber) events := by
    apply along_iff hkeep _ hmatching
    intro s e hs
    cases e with
    | require name =>
      apply iff_of_true trivial
      simp only [retarget]
      cases searchpath name with
      | none => trivial
      | some path =>
        by_cases hname : name ∈ s.loaded
        · simp only [if_pos hname]
          trivial
        · simp only [if_neg hname]
          trivial
    | returned => exact Iff.rfl
    | failed => exact Iff.rfl
    | resume fiber => exact or_congr (hs.frames_eq_nil_iff fiber).symm Iff.rfl
  have hstep : ∀ {s : Runtime} {e : Event} {t : Runtime}, load searchpath s e = some t →
      Scoped.apply s.globals (retarget searchpath s e) = some t.globals := retarget_of_load
  constructor
  · intro hgood done u hdone hu
    rw [(run_invariant_of_step hkeep hmatching hu).ownFile_iff]
    exact Scoped.own_of_along Runtime.globals (retarget searchpath) hstep hnested
      (halong.mp hgood) hdone hu
  · intro hdistinct hown
    apply halong.mpr
    apply Scoped.along_of_own Runtime.globals (retarget searchpath) hstep hnested hdistinct hrun
    intro done u hdone hu
    exact (((run_invariant_of_step hkeep hmatching hu).ownFile_iff before).mp
      (hown done u hdone hu)).1

/-- Every module has its file in the directory `m`. -/
def oneDirectory : Searchpath := fun name => some ([109, 47] ++ name)

/-- A module requires another, which is suspended while a third fails to load on another fiber. In
the end the first is required again. -/
def nestedLoads : List Event :=
  [.require [97], .require [98], .resume 8, .require [99], .failed, .resume 7, .returned, .returned,
    .require [97]]

/-- A load inside a load, and one that fails on another fiber: each module finds the globals of its
own file. -/
theorem ownFile_of_nestedLoads :
    (∃ t, run (load oneDirectory) (.start ⟨none, none⟩ [] 7) nestedLoads = some t) ∧
    ∀ done u, done <+: nestedLoads →
      run (load oneDirectory) (.start ⟨none, none⟩ [] 7) done = some u →
      OwnFile oneDirectory ⟨none, none⟩ u := by
  obtain ⟨t, hrun⟩ :
      ∃ t, run (load oneDirectory) (.start ⟨none, none⟩ [] 7) nestedLoads = some t := ⟨_, rfl⟩
  have hgood : Along (load oneDirectory) NewestLoad (.start ⟨none, none⟩ [] 7) nestedLoads := by
    decide
  exact ⟨⟨t, hrun⟩, (ownFile_iff_newestLoad oneDirectory hrun).1 hgood⟩

/-- The first module goes on while the second is suspended, and runs with the path of the
second. -/
theorem not_ownFile_of_resumed : ¬ ∀ done u,
    done <+: [.require [97], .resume 8, .require [98], .resume 7] →
    run (load oneDirectory) (.start ⟨none, none⟩ [] 7) done = some u →
    OwnFile oneDirectory ⟨none, none⟩ u := by
  intro hown
  obtain ⟨path, hpath, hcurrent⟩ := (hown _ _ (List.prefix_refl _) rfl).inside [97] [] rfl
  obtain rfl := Option.some.inj hpath
  exact absurd (congrArg Globals.SCRIPT_PATH hcurrent) (by decide)

end Radapter.Scopes
