import Radapter.Library.Assoc
import Radapter.Tags.Names
import Radapter.Variant

/-!
# The configurator

The configurator holds the objects of a project under their names, and the pipes between them. Names
that every JavaScript object has, such as `toString`, count as in use and are given to no object;
they are left out, and so is what only the user interface reads.
-/

namespace Radapter.Configurator

open Library

/-! ## Objects and pipes -/

/-- An entry of `objects`. -/
structure Object where
  type : QString
  config : QVariant
  deriving DecidableEq

/-- An entry of `pipes`: its ends and its directive fields. -/
structure Pipe where
  fromName : QString
  toName : QString
  wrap : Option QString
  unwrap : Option QString
  onField : Option QString
  deriving DecidableEq

/-- `pipeKinds`. -/
inductive Kind where
  | pipe
  | wrap
  | unwrap
  | onField
  deriving DecidableEq, Repr

/-- The authored state. -/
structure Context where
  objects : List (QString × Object)
  pipes : List Pipe
  visualization : QVariant
  revision : ℕ

namespace Context

def bump (ctx : Context) : Context := { ctx with revision := ctx.revision + 1 }

def has (ctx : Context) (name : QString) : Bool := (ctx.objects.lookup name).isSome

def put (ctx : Context) (name type : QString) (config : QVariant) : Context :=
  { ctx with objects := Assoc.put name ⟨type, config⟩ ctx.objects }.bump

def remove (ctx : Context) (name : QString) : Context :=
  if !ctx.has name then ctx
  else
    { ctx with
      objects := Assoc.erase name ctx.objects
      pipes := ctx.pipes.filter (fun p => p.fromName ≠ name ∧ p.toName ≠ name) }.bump

end Context

/-- An end of a pipe after a renaming. -/
def renamed (oldName newName name : QString) : QString :=
  if name = oldName then newName else name

/-- What `rename` makes of a pipe. -/
def Pipe.rename (oldName newName : QString) (p : Pipe) : Pipe where
  fromName := renamed oldName newName p.fromName
  toName := renamed oldName newName p.toName
  wrap := none
  unwrap := none
  onField := none

def Context.rename (ctx : Context) (oldName newName : QString) : Context :=
  match ctx.objects.lookup oldName with
  | none => ctx
  | some object =>
      if oldName = newName then ctx
      else
        { ctx with
          objects := Assoc.erase oldName (Assoc.put newName object ctx.objects)
          pipes := ctx.pipes.map (Pipe.rename oldName newName) }.bump

/-! ## Directives -/

/-- `pipeDir`; a plain pipe has none. -/
def Pipe.pipeDir (p : Pipe) : Option Kind :=
  if p.wrap.isSome then some .wrap
  else if p.unwrap.isSome then some .unwrap
  else if p.onField.isSome then some .onField
  else none

def Pipe.pipeKey (p : Pipe) : QString :=
  match p.pipeDir with
  | some .wrap => p.wrap.getD []
  | some .unwrap => p.unwrap.getD []
  | some .onField => p.onField.getD []
  | some .pipe => []
  | none => []

def samePipe (a b : Pipe) : Bool :=
  a.fromName == b.fromName && a.toName == b.toName && a.pipeDir == b.pipeDir &&
    a.pipeKey == b.pipeKey

/-- White space and line ends of ECMAScript. -/
def isSpace (c : UInt16) : Bool :=
  c ∈ [9, 10, 11, 12, 13, 32, 0xA0, 0x1680, 0x2028, 0x2029, 0x202F, 0x205F, 0x3000, 0xFEFF] ||
    (0x2000 ≤ c && c ≤ 0x200A)

/-- `String.prototype.trim`. -/
def trim (s : QString) : QString := (s.dropWhile isSpace).rdropWhile isSpace

/-- A pipe without a directive. -/
def Pipe.plain (fromName toName : QString) : Pipe := ⟨fromName, toName, none, none, none⟩

/-- The pipe with a directive, as `addPipe` and `setPipeDirective` make it; `none` for a bad key. An
undefined kind is that of a plain pipe. -/
def directed (fromName toName : QString) (kind : Option Kind) (key : Option QString) :
    Option Pipe :=
  let key := trim (key.getD [])
  match kind with
  | none => some (.plain fromName toName)
  | some .pipe => some (.plain fromName toName)
  | some .wrap =>
      if key.isEmpty then none else some { Pipe.plain fromName toName with wrap := some key }
  | some .unwrap =>
      if key.isEmpty then none else some { Pipe.plain fromName toName with unwrap := some key }
  | some .onField =>
      if key.isEmpty then none else some { Pipe.plain fromName toName with onField := some key }

namespace Context

def hasPipe (ctx : Context) (p : Pipe) : Bool := ctx.pipes.any (fun q => samePipe q p)

/-- `addPipe`, with what it returns. -/
def addPipe (ctx : Context) (fromName toName : QString) (kind : Option Kind)
    (key : Option QString) : Context × Bool :=
  if fromName = toName then (ctx, false)
  else
    match directed fromName toName kind key with
    | none => (ctx, false)
    | some p =>
        if ctx.hasPipe p then (ctx, false)
        else ({ ctx with pipes := ctx.pipes ++ [p] }.bump, true)

def removePipe (ctx : Context) (i : ℤ) : Context :=
  { ctx with
    pipes := (ctx.pipes.zipIdx.filter (fun e : Pipe × ℕ => (e.2 : ℤ) ≠ i)).map Prod.fst }.bump

/-- `setPipeDirective`, with what it returns. -/
def setPipeDirective (ctx : Context) (i : ℤ) (kind : Option Kind) (key : Option QString) :
    Context × Bool :=
  if i < 0 then (ctx, false)
  else
    match ctx.pipes[i.toNat]? with
    | none => (ctx, false)
    | some old =>
        match directed old.fromName old.toName kind key with
        | none => (ctx, false)
        | some np => ({ ctx with pipes := ctx.pipes.set i.toNat np }.bump, true)

/-! ## Names in use -/

/-- A name is in use if it has an object. -/
theorem has_iff {ctx : Context} {name : QString} :
    ctx.has name = true ↔ ∃ object, ctx.objects.lookup name = some object := by
  rw [has, Option.isSome_iff_exists]

/-- It is free if it has none. -/
theorem has_eq_false_iff {ctx : Context} {name : QString} :
    ctx.has name = false ↔ ctx.objects.lookup name = none := by
  rw [has, Option.isSome_eq_false_iff, Option.isNone_iff_eq_none]

/-- What `rename` does when the old name is in use and the new one is not. -/
theorem rename_eq {ctx : Context} {oldName newName : QString} {object : Object}
    (hold : ctx.objects.lookup oldName = some object) (hnew : ctx.has newName = false) :
    oldName ≠ newName ∧ ctx.rename oldName newName =
      { ctx with
        objects := Assoc.erase oldName (Assoc.put newName object ctx.objects)
        pipes := ctx.pipes.map (Pipe.rename oldName newName) }.bump := by
  have hne : oldName ≠ newName := by
    rintro rfl
    rw [has, hold] at hnew
    cases hnew
  refine ⟨hne, ?_⟩
  rw [rename, hold]
  simp only [hne, if_false]

/-- The objects after a renaming. -/
theorem lookup_rename {ctx : Context} {oldName newName : QString} {object : Object}
    (hold : ctx.objects.lookup oldName = some object) (hnew : ctx.has newName = false)
    (name : QString) : (ctx.rename oldName newName).objects.lookup name =
      if name = newName then some object
      else if name = oldName then none else ctx.objects.lookup name := by
  obtain ⟨hne, heq⟩ := rename_eq hold hnew
  rw [heq]
  change (Assoc.erase oldName (Assoc.put newName object ctx.objects)).lookup name = _
  split_ifs with hname hname'
  · rw [hname, Assoc.lookup_erase_ne (Ne.symm hne), Assoc.lookup_put_self]
  · rw [hname', Assoc.lookup_erase_self]
  · rw [Assoc.lookup_erase_ne hname', Assoc.lookup_put_ne hname]

end Context

end Radapter.Configurator
