import Radapter.Configurator.Context

/-!
# Renaming an object

The name of an object occurs as its key, at the ends of pipes, and as the `ref` of the tables in the
configurations of other objects. A renaming reaches the keys and the ends of the pipes. It makes the
pipes anew from their ends, so their directives are lost, and it leaves the references as they were.
-/

namespace Radapter.Configurator

open Library
open Tags (literal)

/-! ## References -/

/-- A field of a table that names an object. -/
def isRefTo (name key : QString) (value : QVariant) : Bool :=
  key == literal "ref" && decide (value = .leaf (.string name))

mutual

/-- The configuration with the references to an object renamed. -/
def renameRefs (oldName newName : QString) : QVariant → QVariant
  | .leaf s => .leaf s
  | .list items => .list (renameRefsList oldName newName items)
  | .map entries => .map (renameRefsMap oldName newName entries)

def renameRefsList (oldName newName : QString) : List QVariant → List QVariant
  | [] => []
  | v :: rest => renameRefs oldName newName v :: renameRefsList oldName newName rest

def renameRefsMap (oldName newName : QString) :
    List (QString × QVariant) → List (QString × QVariant)
  | [] => []
  | (key, value) :: rest =>
      (key, if isRefTo oldName key value then .leaf (.string newName)
        else renameRefs oldName newName value) :: renameRefsMap oldName newName rest

end

mutual

/-- The configuration has a reference to the object, at some depth. -/
def refersTo (name : QString) : QVariant → Bool
  | .leaf _ => false
  | .list items => refersToList name items
  | .map entries => refersToMap name entries

def refersToList (name : QString) : List QVariant → Bool
  | [] => false
  | v :: rest => refersTo name v || refersToList name rest

def refersToMap (name : QString) : List (QString × QVariant) → Bool
  | [] => false
  | (key, value) :: rest =>
      isRefTo name key value || refersTo name value || refersToMap name rest

end

mutual

/-- A renaming of references changes exactly what has one. -/
theorem renameRefs_eq_self_iff {oldName newName : QString} (hne : oldName ≠ newName)
    (v : QVariant) : renameRefs oldName newName v = v ↔ refersTo oldName v = false := by
  cases v with
  | leaf s => exact ⟨fun _ => rfl, fun _ => rfl⟩
  | list items =>
    rw [renameRefs, refersTo, QVariant.list.injEq]
    exact renameRefsList_eq_self_iff hne items
  | map entries =>
    rw [renameRefs, refersTo, QVariant.map.injEq]
    exact renameRefsMap_eq_self_iff hne entries

/-- A list is unchanged exactly if it has no reference to the old name. -/
theorem renameRefsList_eq_self_iff {oldName newName : QString} (hne : oldName ≠ newName)
    (items : List QVariant) :
    renameRefsList oldName newName items = items ↔ refersToList oldName items = false := by
  cases items with
  | nil => exact ⟨fun _ => rfl, fun _ => rfl⟩
  | cons v rest =>
    rw [renameRefsList, refersToList, List.cons.injEq, Bool.or_eq_false_iff,
      renameRefs_eq_self_iff hne v, renameRefsList_eq_self_iff hne rest]

/-- So is a map. -/
theorem renameRefsMap_eq_self_iff {oldName newName : QString} (hne : oldName ≠ newName)
    (entries : List (QString × QVariant)) :
    renameRefsMap oldName newName entries = entries ↔ refersToMap oldName entries = false := by
  cases entries with
  | nil => exact ⟨fun _ => rfl, fun _ => rfl⟩
  | cons e rest =>
    obtain ⟨key, value⟩ := e
    rw [renameRefsMap, refersToMap, List.cons.injEq, Bool.or_eq_false_iff,
      Bool.or_eq_false_iff, renameRefsMap_eq_self_iff hne rest, Prod.mk.injEq]
    cases href : isRefTo oldName key value with
    | true =>
      rw [isRefTo, Bool.and_eq_true, decide_eq_true_eq] at href
      rw [href.2]
      simp [Ne.symm hne]
    | false =>
      simp only [Bool.false_eq_true, if_false, true_and, renameRefs_eq_self_iff hne value]

end

/-! ## The renaming -/

/-- A pipe between the renamed objects, with the same directive. -/
def Pipe.renameEnds (oldName newName : QString) (p : Pipe) : Pipe :=
  { p with
    fromName := renamed oldName newName p.fromName, toName := renamed oldName newName p.toName }

/-- The authored configuration with the name of an object replaced wherever it stands, and with
nothing else changed. -/
structure Renamed (oldName newName : QString) (ctx next : Context) : Prop where
  object : next.objects.lookup newName = ctx.objects.lookup oldName
  gone : next.objects.lookup oldName = none
  others : ∀ name, name ≠ oldName → name ≠ newName → next.objects.lookup name =
    (ctx.objects.lookup name).map
      (fun o => { o with config := renameRefs oldName newName o.config })
  pipes : next.pipes = ctx.pipes.map (Pipe.renameEnds oldName newName)
  visualization : next.visualization = ctx.visualization

/-- The configurator drops the directive of every pipe that it rebuilds, so only a pipe without one
is what it should be. -/
theorem Pipe.rename_eq_renameEnds_iff {oldName newName : QString} (p : Pipe) :
    p.rename oldName newName = p.renameEnds oldName newName ↔ p.pipeDir = none := by
  obtain ⟨fromName, toName, wrap, unwrap, onField⟩ := p
  rw [Pipe.rename, Pipe.renameEnds, Pipe.pipeDir, Pipe.mk.injEq]
  cases wrap with
  | some key => simp
  | none =>
    cases unwrap with
    | some key => simp
    | none =>
      cases onField with
      | some field => simp
      | none => simp

/-- `rename` does what it is for if and only if no pipe has a directive and no other object refers
to the one that is renamed. -/
theorem renamed_iff {ctx : Context} {oldName newName : QString} (hold : ctx.has oldName = true)
    (hnew : ctx.has newName = false) :
    Renamed oldName newName ctx (ctx.rename oldName newName) ↔
      (∀ p ∈ ctx.pipes, p.pipeDir = none) ∧
        ∀ name o, name ≠ oldName → ctx.objects.lookup name = some o →
          refersTo oldName o.config = false := by
  obtain ⟨object, hobject⟩ := Context.has_iff.mp hold
  obtain ⟨hne, heq⟩ := Context.rename_eq hobject hnew
  have hlookup := Context.lookup_rename hobject hnew
  have hpipes : (ctx.rename oldName newName).pipes =
      ctx.pipes.map (Pipe.rename oldName newName) := by
    rw [heq]
    rfl
  have hnone := Context.has_eq_false_iff.mp hnew
  constructor
  · intro h
    constructor
    · intro p hp
      have hsame := h.pipes
      rw [hpipes, List.map_inj_left] at hsame
      exact (Pipe.rename_eq_renameEnds_iff p).mp (hsame p hp)
    · intro name o hname ho
      have hnewName : name ≠ newName := by
        rintro rfl
        rw [ho] at hnone
        cases hnone
      have hother := h.others name hname hnewName
      rw [hlookup, if_neg hnewName, if_neg hname, ho, Option.map_some, Option.some.injEq] at hother
      exact (renameRefs_eq_self_iff hne o.config).mp (congrArg Object.config hother).symm
  · rintro ⟨hplain, hrefs⟩
    constructor
    · rw [hlookup, if_pos rfl, hobject]
    · rw [hlookup, if_neg hne, if_pos rfl]
    · intro name hname hnewName
      rw [hlookup, if_neg hnewName, if_neg hname]
      cases ho : ctx.objects.lookup name with
      | none => rfl
      | some o =>
        rw [Option.map_some, (renameRefs_eq_self_iff hne o.config).mpr (hrefs name o hname ho)]
    · rw [hpipes, List.map_inj_left]
      exact fun p hp => (Pipe.rename_eq_renameEnds_iff p).mpr (hplain p hp)
    · rw [heq]
      rfl

/-- Two objects, one of them a device that the other may refer to. -/
def twoObjects (config : QVariant) (pipe : Pipe) : Context where
  objects := [(literal "dev", ⟨literal "TcpModbusDevice", .map []⟩),
    (literal "master", ⟨literal "ModbusMaster", config⟩)]
  pipes := [pipe]
  visualization := .map []
  revision := 0

/-- A pipe without a directive follows its object to the new name. -/
theorem renamed_plain :
    Renamed (literal "dev") (literal "plc")
      (twoObjects (.map []) (.plain (literal "master") (literal "dev")))
      ((twoObjects (.map []) (.plain (literal "master") (literal "dev"))).rename (literal "dev")
        (literal "plc")) := by
  refine (renamed_iff (by decide) (by decide)).mpr ⟨by decide, ?_⟩
  intro name o hname ho
  have hmem := Assoc.mem_of_lookup ho
  simp only [twoObjects, List.mem_cons, Prod.mk.injEq, List.not_mem_nil, or_false] at hmem
  rcases hmem with ⟨rfl, rfl⟩ | ⟨rfl, rfl⟩
  · rfl
  · rfl

/-- The pipe loses its directive, and the reference still has the old name. -/
theorem not_renamed :
    let ctx := twoObjects (.map [(literal "device", .map [(literal "ref",
        .leaf (.string (literal "dev")))])])
      { Pipe.plain (literal "master") (literal "dev") with wrap := some (literal "k") }
    (ctx.rename (literal "dev") (literal "plc")).pipes =
        [Pipe.plain (literal "master") (literal "plc")] ∧
      (ctx.rename (literal "dev") (literal "plc")).objects.lookup (literal "master") =
        ctx.objects.lookup (literal "master") ∧
      ¬ Renamed (literal "dev") (literal "plc") ctx
        (ctx.rename (literal "dev") (literal "plc")) := by
  refine ⟨by decide, by decide, fun h => ?_⟩
  exact absurd h.pipes (by decide)

end Radapter.Configurator
