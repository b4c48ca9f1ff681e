import Radapter.Library.Results
import Radapter.Lua.Value
import Mathlib.Logic.Relation

/-!
# Building a project

`build` makes the objects of a project by their factories and wires the pipes between them. The
config of an object may refer to other objects, which are made first: `instantiate` makes an object
once and remembers it, and `resolve` copies a config and puts objects for the references in it.

A table is visited in the order of its fields, which may be any order, as it is for `pairs`.
Factories are functions of Lua's environment. They return objects, never `nil`, and may return
different ones for each call.
-/

namespace Radapter.Scada

open Library Lua

/-! ## Values -/

/-- What `resolve` returns: a value that is not a table, an object, or a copy of a table. -/
inductive Resolved (ω : Type) where
  | value (v : LuaValue)
  | object (o : ω)
  | table (fields : List (LuaKey × Resolved ω))

/-- A call of a factory. An object inside a config has no name. -/
structure Call (ω : Type) where
  name : Option LuaKey
  factory : Bytes
  config : Resolved ω
  result : ω

/-- What `_G` has: the functions among its values, and what the `n`-th call of one returns. -/
structure Environment (ω : Type) where
  isFunction : Bytes → Bool
  make : ℕ → Bytes → Resolved ω → ω

/-- A part of an error message. -/
inductive Piece where
  | text (s : String)
  | key (k : LuaKey)
  | value (v : LuaValue)
  | number (n : ℕ)

inductive Failure where
  | raised (message : List Piece)
  | outOfFuel

/-- The tables `built` and `building`, and the calls of factories so far. -/
structure Building (ω : Type) where
  built : LuaKey → Option ω := fun _ => none
  building : LuaKey → Bool := fun _ => false
  calls : List (Call ω) := []

abbrev BuildM (ω : Type) := StateT (Building ω) (Except Failure)

/-! ## Tables of a config -/

/-- `ref`. -/
def refKey : LuaKey := .string [114, 101, 102]

/-- `type`. -/
def typeKey : LuaKey := .string [116, 121, 112, 101]

/-- `config`. -/
def configKey : LuaKey := .string [99, 111, 110, 102, 105, 103]

/-- `name`. -/
def nameKey : LuaKey := .string [110, 97, 109, 101]

/-- The object that a table refers to. -/
def refName (fields : Fields) : Option LuaKey :=
  match rawget fields refKey with
  | .string s => some (.string s)
  | _ => none

/-- The name of a function. -/
def Environment.function {ω : Type} (env : Environment ω) : LuaValue → Option Bytes
  | .string s => if env.isFunction s then some s else none
  | _ => none

/-- The factory of a table that stands for an object. -/
def Environment.inlineType {ω : Type} (env : Environment ω) (fields : Fields) : Option Bytes :=
  if (rawget fields configKey).isTable then env.function (rawget fields typeKey) else none

/-- `entry.config or {}`. -/
def configOf (entry : Fields) : LuaValue :=
  match rawget entry configKey with
  | .nil => .table []
  | .boolean false => .table []
  | v => v

/-- A key as a value. -/
def keyValue : LuaKey → LuaValue
  | .string s => .string s
  | .integer n => .integer (BitVec.ofInt 64 n)
  | .number bits => .number bits
  | .boolean b => .boolean b

/-- `cfg.name = cfg.name or name`. -/
def withName {ω : Type} (name : LuaKey) (fields : List (LuaKey × Resolved ω)) :
    List (LuaKey × Resolved ω) :=
  match fields.lookup nameKey with
  | none => Assoc.put nameKey (.value (keyValue name)) fields
  | some (.value .nil) => Assoc.put nameKey (.value (keyValue name)) fields
  | some (.value (.boolean false)) => Assoc.put nameKey (.value (keyValue name)) fields
  | some _ => fields

/-! ## Objects -/

section Build

variable {ω : Type} (env : Environment ω)

/-- `factory(config)`. -/
def callFactory (name : Option LuaKey) (factory : Bytes) (config : Resolved ω) : BuildM ω ω :=
  fun s =>
    let result := env.make s.calls.length factory config
    .ok (result, { s with calls := s.calls ++ [⟨name, factory, config, result⟩] })

section Resolve

variable (instantiate : LuaKey → BuildM ω ω)

mutual

/-- `resolve`. -/
def resolve : LuaValue → BuildM ω (Resolved ω)
  | .table fields =>
      match refName fields with
      | some name => do
          let o ← instantiate name
          return .object o
      | none =>
          match env.inlineType fields with
          | some factory => do
              let config ← resolveField configKey fields
              let o ← callFactory env none factory config
              return .object o
          | none => do
              let out ← resolveFields fields
              return .table out
  | v => return .value v

/-- `resolve` of a field of a table. -/
def resolveField (k : LuaKey) : Fields → BuildM ω (Resolved ω)
  | [] => return .value .nil
  | (j, v) :: rest => if k = j then resolve v else resolveField k rest

/-- The loop of `resolve` over the fields of a table. -/
def resolveFields : Fields → BuildM ω (List (LuaKey × Resolved ω))
  | [] => return []
  | (k, v) :: rest => do
      let r ← resolve v
      let out ← resolveFields rest
      return (k, r) :: out

end

end Resolve

/-- `building[name] = true`. -/
def Building.start (name : LuaKey) (s : Building ω) : Building ω :=
  { s with building := Function.update s.building name true }

/-- `building[name] = nil`, then `built[name] = obj`. -/
def Building.finish (name : LuaKey) (obj : ω) (s : Building ω) : Building ω :=
  { s with
    building := Function.update s.building name false
    built := Function.update s.built name (some obj) }

/-- `instantiate`; the fuel is the depth of its recursion. -/
def instantiate (objects : Fields) : ℕ → LuaKey → BuildM ω ω
  | 0, _ => throw .outOfFuel
  | fuel + 1, name => do
      let s ← get
      match s.built name with
      | some existing => return existing
      | none =>
          if s.building name then
            throw (.raised [.text "dependency cycle while building object '", .key name, .text "'"])
          else
            match rawget objects name with
            | .table entry =>
                match env.function (rawget entry typeKey) with
                | some factory => do
                    set (s.start name)
                    let cfg ← resolve env (instantiate objects fuel) (configOf entry)
                    match cfg with
                    | .table fields => do
                        let obj ←
                          callFactory env (some name) factory (.table (withName name fields))
                        modify (Building.finish name obj)
                        return obj
                    | _ => throw (.raised [.text "attempt to index a value that is not a table"])
                | none =>
                    throw (.raised [.text "object '", .key name, .text "' has unknown type '",
                      .value (rawget entry typeKey), .text "'"])
            | _ => throw (.raised [.text "unknown object reference: '", .key name, .text "'"])

/-- The loop of `build` over the objects. -/
def instantiateAll (objects : Fields) (fuel : ℕ) : List LuaKey → BuildM ω Unit
  | [] => return
  | name :: rest => do
      let _ ← instantiate env objects fuel name
      instantiateAll objects fuel rest

/-! ## Pipes -/

/-- An entry of `config.pipes`. -/
structure PipeEntry where
  fromName : Option LuaKey
  toName : Option LuaKey
  wrap : Option Bytes
  unwrap : Option Bytes
  onField : Option Bytes

/-- A pipe that has been wired: a call of `pipe`, with or without a function between the ends, or of
`on`. -/
inductive Wire (ω : Type) where
  | pipe (source target : ω)
  | wrapped (source : ω) (field : Bytes) (target : ω)
  | unwrapped (source : ω) (field : Bytes) (target : ω)
  | onField (source : ω) (field : Bytes) (target : ω)

def PipeEntry.wire (p : PipeEntry) (source target : ω) : Wire ω :=
  match p.wrap, p.unwrap, p.onField with
  | some field, _, _ => .wrapped source field target
  | none, some field, _ => .unwrapped source field target
  | none, none, some field => .onField source field target
  | none, none, none => .pipe source target

/-- The config that `build` is given. -/
structure Project where
  objects : Fields
  pipes : List PipeEntry

/-- How `build` ends: the pipes that it has wired, and the table that it returns if it does. -/
structure Outcome (ω : Type) where
  wired : List (Wire ω)
  result : Except Failure (LuaKey → Option ω)

/-- An end of a pipe in an error message. -/
def endPiece : Option LuaKey → Piece
  | none => .value .nil
  | some k => .key k

/-- The loop of `build` over the pipes. -/
def wirePipes (built : LuaKey → Option ω) : ℕ → List PipeEntry → List (Wire ω) → Outcome ω
  | _, [], wired => ⟨wired, .ok built⟩
  | i, p :: rest, wired =>
      match p.fromName.bind built with
      | none =>
          ⟨wired, .error (.raised [.text "pipe #", .number i, .text ": unknown source '",
            endPiece p.fromName, .text "'"])⟩
      | some source =>
          match p.toName.bind built with
          | none =>
              ⟨wired, .error (.raised [.text "pipe #", .number i, .text ": unknown target '",
                endPiece p.toName, .text "'"])⟩
          | some target => wirePipes built (i + 1) rest (wired ++ [p.wire source target])

/-- `build` up to the pipes. -/
def Project.buildObjects (p : Project) (fuel : ℕ) : Except Failure (Building ω) :=
  ((instantiateAll env p.objects fuel (p.objects.map Prod.fst)).run {}).map Prod.snd

/-- `build`. -/
def Project.build (p : Project) (fuel : ℕ) : Outcome ω :=
  match p.buildObjects env fuel with
  | .error e => ⟨[], .error e⟩
  | .ok s => wirePipes s.built 1 p.pipes []

/-! ## References -/

mutual

/-- The objects that a config refers to, through tables and objects inside it. -/
def refs : LuaValue → List LuaKey
  | .table fields =>
      match refName fields with
      | some name => [name]
      | none =>
          match env.inlineType fields with
          | some _ => refsField configKey fields
          | none => refsFields fields
  | _ => []

def refsField (k : LuaKey) : Fields → List LuaKey
  | [] => []
  | (j, v) :: rest => if k = j then refs v else refsField k rest

def refsFields : Fields → List LuaKey
  | [] => []
  | (_, v) :: rest => refs v ++ refsFields rest

end

/-- A table that is neither a reference nor an object. -/
def IsPlain (v : LuaValue) : Prop :=
  ∃ fields, v = .table fields ∧ refName fields = none ∧ env.inlineType fields = none

namespace Project

variable (p : Project)

/-- The configs of the objects are plain tables. -/
def PlainConfigs : Prop :=
  ∀ name entry, rawget p.objects name = .table entry → IsPlain env (configOf entry)

/-- The config of `k` refers to `j`. -/
def Refers (k j : LuaKey) : Prop :=
  ∃ entry, rawget p.objects k = .table entry ∧ j ∈ refs env (configOf entry)

/-- References lead from `k` to `j`. -/
def Reaches : LuaKey → LuaKey → Prop := Relation.TransGen (p.Refers env)

/-- There is an entry for the name, and its type is a function. -/
def Makes (name : LuaKey) : Prop :=
  ∃ entry factory, rawget p.objects name = .table entry ∧
    env.function (rawget entry typeKey) = some factory

end Project

end Build

end Radapter.Scada
