import Radapter.Config.Conf
import Radapter.Library.Parts
import Radapter.Library.Sorted

/-!
# The templates of the configuration

`Parse`, `Dump` and `PopulateSchema` are overloaded on the type of a member. Each overload is a
`Template` here, and the overloads for containers take the template of what they contain. A struct
is described by its members, which are written one after the other.
-/

namespace Radapter.Config

/-- A step into a configuration: a key or an index. -/
inductive Step where
  | key (k : Bytes)
  | index (i : ℕ)
  deriving DecidableEq, Repr

/-- `TraceFrame`: the steps from the root, which has none. -/
abbrev TraceFrame := List Step

/-- `TraceFrame::IsRoot`. -/
def TraceFrame.isRoot (frame : TraceFrame) : Bool := frame.isEmpty

/-- `TraceFrame::PrintTrace`. -/
def TraceFrame.printTrace (frame : TraceFrame) : Bytes :=
  frame.flatMap fun
    | .key k => text "." ++ k
    | .index i => text ".[" ++ decimal i ++ text "]"

/-- The error that `Parse` raises at a frame. -/
structure ParseError where
  frame : TraceFrame
  reason : Bytes
  deriving DecidableEq, Repr

/-- `std::exception::what`. -/
def ParseError.what (e : ParseError) : Bytes := e.frame.printTrace ++ text ": " ++ e.reason

/-- The overloads for one type. A parse overwrites the value that it is given, and so does the
population of a schema; a dump writes to a variant. -/
structure Template (T : Type) where
  /-- The value-initialised `T`. -/
  init : T
  parse : (out : T) → Conf → TraceFrame → Except ParseError T
  dump : T → (out : Conf) → Except Bytes Conf
  populateSchema : T → T × Conf

/-- `QString::fromLatin1`. -/
def latin1 (name : Bytes) : QString := name.map (fun b => UInt16.ofNat b.toNat)

/-- A literal of the source as a variant. -/
def literal (s : String) : Conf := .string (latin1 (text s))

section Overloads

variable (qt : Qt)

/-- `CheckCanConvert`. -/
def checkCanConvert (target : MetaType) (source : Conf) (frame : TraceFrame) :
    Except ParseError Unit :=
  if qt.canConvert source.metaType target then .ok ()
  else .error ⟨frame, text "Could not convert to '" ++ target.name.getD [] ++ text "' from '" ++
    typeNameOf source ++ text "'"⟩

/-- The overloads of a type that Qt converts to. -/
def converted {T : Type} (target : MetaType) (value : Conf → T) (fromValue : T → Conf)
    (schema : String) (init : T) : Template T where
  init := init
  parse _ conf frame := do
    checkCanConvert qt target conf frame
    .ok (value (qt.convert target conf))
  dump x _ := .ok (fromValue x)
  populateSchema x := (x, literal schema)

def bool : Template Bool :=
  converted qt .Bool (fun | .bool b => b | _ => false) .bool "bool" false

/-- `std::string`. -/
def string : Template Bytes :=
  converted qt .QString (fun conf => toStdString conf.asString) (fun s => .string (fromUtf8 s))
    "string" []

def qString : Template QString :=
  converted qt .QString Conf.asString .string "string" []

/-- `QVariant`. -/
def any : Template Conf where
  init := .invalid
  parse _ conf _ := .ok conf
  dump x _ := .ok x
  populateSchema x := (x, literal "any")

/-- `QVariantMap`. -/
def anyMap : Template (List (QString × Conf)) :=
  converted qt .QVariantMap (fun | .map entries => entries | _ => []) .map "any_map" []

/-- `QVariantList`. An empty table is an empty map, and leaves the list as it is. -/
def anyList : Template (List Conf) where
  init := []
  parse out conf frame :=
    match conf with
    | .map [] => .ok out
    | conf => do
        checkCanConvert qt .QVariantList conf frame
        .ok (qt.convert .QVariantList conf).asList
  dump x _ := .ok (.list x)
  populateSchema x := (x, literal "any_list")

def luaFunction : Template ℕ :=
  converted qt .LuaFunction (fun | .function ref => ref | _ => 0) .function "function" 0

def uuid : Template (BitVec 128) :=
  converted qt .QUuid (fun | .uuid id => id | _ => 0) .uuid "uuid" 0

/-- `QObject*`. -/
def qObject : Template (Option Object) :=
  converted qt (.pointer "QObject") (fun | .object _ o => o | _ => none) (.object "QObject")
    "custom_object" none

/-- `qobject_cast<T*>`, and the error where it gives nothing. -/
def castTo (cls : String) (frame : TraceFrame) : Option Object → Except ParseError (Option Object)
  | some object =>
      if cls ∈ object.className :: object.inherits then .ok (some object)
      else .error ⟨frame, text "could not cast " ++ text object.className ++ text " => " ++
        text cls⟩
  | none => .error ⟨frame, text "could not cast <nil> => " ++ text cls⟩

/-- A pointer to a class that inherits from `QObject`. It is dumped by the overload for a
`QObject*`. -/
def customObject (cls : String) : Template (Option Object) where
  init := none
  parse _ conf frame := do
    let o ← (qObject qt).parse none conf frame
    castTo cls frame o
  dump x _ := .ok (.object "QObject" x)
  populateSchema x := (x, literal cls)

/-- `fmt::join(names, ", ")`. -/
def joinNames : List Bytes → Bytes
  | [] => []
  | [name] => name
  | name :: rest => name ++ text ", " ++ joinNames rest

/-- The text of an integer. -/
def numberText (n : ℤ) : Bytes := (if n < 0 then text "-" else []) ++ decimal n.natAbs

/-- The description of an enumeration: the names of its values in order, where a value may have
more than one, and the number behind a value. -/
structure Enumeration (E : Type) where
  name : Bytes
  enumerators : List (Bytes × E)
  underlying : E → ℤ
  init : E

/-- `describe::enum_to_name`. -/
def Enumeration.enum_to_name {E : Type} [DecidableEq E] (e : Enumeration E) (value : E) :
    Option Bytes :=
  (e.enumerators.find? (fun enumerator => enumerator.2 = value)).map Prod.fst

/-- `describe::name_to_enum`. -/
def Enumeration.name_to_enum {E : Type} (e : Enumeration E) (name : Bytes) : Option E :=
  e.enumerators.lookup name

def enumeration {E : Type} [DecidableEq E] (e : Enumeration E) : Template E where
  init := e.init
  parse _ conf frame :=
    if qt.canConvert conf.metaType .QString then
      let name := toStdString (qt.convert .QString conf).asString
      match e.name_to_enum name with
      | some value => .ok value
      | none => .error ⟨frame, text "Invalid value for enum (" ++ e.name ++ text "): " ++ name ++
          text ". Valid: [" ++ joinNames (e.enumerators.map Prod.fst) ++ text "]"⟩
    else .error ⟨frame, text "Cannot convert to " ++ e.name ++ text " from " ++ typeNameOf conf⟩
  dump x _ :=
    match e.enum_to_name x with
    | some name => .ok (.string (fromUtf8 name))
    | none => .error (text "Invalid enum value: " ++ numberText (e.underlying x))
  populateSchema x := (x, .list (e.enumerators.map fun enumerator => .string (latin1 enumerator.1)))

/-- An integer. What is converted must equal what it was converted from. -/
def number (t : IntegerType) : Template (BitVec t.width) where
  init := 0
  parse _ conf frame := do
    checkCanConvert qt (.integer t) conf frame
    let out := toInteger qt t conf
    if equals qt t out conf then .ok out
    else .error ⟨frame, text "Could not convert to number from: " ++
      toStdString (qt.convert .QString conf).asString ++ text " (" ++ typeNameOf conf ++ text ")"⟩
  dump x _ := .ok (.integer t x)
  populateSchema x := (x, literal t.name)

end Overloads

/-! ## Structs -/

/-- What is described of a member. -/
structure Member (T : Type) where
  name : Bytes
  template : Template T

/-- The description of a struct. The members have names of their own, which are identifiers, and
stand apart; those of the structs that it inherits from are among them. -/
structure Description (S : Type) where
  name : Bytes
  init : S
  members : List (Library.Part Member S)
  names_nodup : (members.map fun m => m.info.name).Nodup
  names_plain : ∀ m ∈ members, ∀ b ∈ m.info.name, b < 128 ∧ b ≠ 91
  members_apart : members.Pairwise Library.Part.Apart

namespace Description

variable {S : Type}

/-- The frame that the members of a struct hang from. -/
def current (d : Description S) (frame : TraceFrame) : TraceFrame :=
  if frame.isRoot then frame ++ [.key d.name] else frame

/-- The parse of one member. -/
def parseMember (asMap : List (QString × Conf)) (frame : TraceFrame) (m : Library.Part Member S)
    (out : m.Carrier) : Except ParseError m.Carrier :=
  m.info.template.parse out (Conf.value asMap (latin1 m.info.name)) (frame ++ [.key m.info.name])

/-- The dump of every member, into a map. -/
def dumpMembers (s : S) : List (Library.Part Member S) → List (QString × Conf) →
    Except Bytes (List (QString × Conf))
  | [], map => .ok map
  | m :: rest, map => do
      let nested ← m.info.template.dump (m.access.get s) .invalid
      dumpMembers s rest (Library.Sorted.assign (latin1 m.info.name) nested map)

/-- The schema of every member, in a map. -/
def populateMembers : List (Library.Part Member S) → S → List (QString × Conf) →
    S × List (QString × Conf)
  | [], s, map => (s, map)
  | m :: rest, s, map =>
      let populated := m.info.template.populateSchema (m.access.get s)
      populateMembers rest (m.access.set populated.1 s)
        (Library.Sorted.assign (latin1 m.info.name) populated.2 map)

/-- A struct. -/
def template (d : Description S) : Template S where
  init := d.init
  parse out conf frame :=
    match conf with
    | .map asMap => Library.Part.visit (parseMember asMap (d.current frame)) d.members out
    | conf => .error ⟨d.current frame, text "Cannot get " ++ d.name ++ text " from " ++
        typeNameOf conf⟩
  dump s _ := do
    let map ← dumpMembers s d.members []
    .ok (.map map)
  populateSchema s :=
    let populated := populateMembers d.members s []
    (populated.1, .map populated.2)

end Description

/-! ## Containers -/

section Containers

variable {T : Type} (c : Template T)

/-- `WithDefault<T>`. The default is left out of the schema where it cannot be dumped. -/
def withDefault : Template T where
  init := c.init
  parse out conf frame := if conf.isNull then .ok out else c.parse out conf frame
  dump x out := c.dump x out
  populateSchema x :=
    let populated := c.populateSchema x
    match c.dump populated.1 .invalid with
    | .ok shown => (populated.1, .map (Library.Sorted.assign (latin1 (text "default")) shown
        [(latin1 (text "[has_default]"), populated.2)]))
    | .error _ => (populated.1, .map [(latin1 (text "[has_default]"), populated.2)])

/-- `std::optional<T>`. -/
def optional : Template (Option T) where
  init := none
  parse _ conf frame :=
    if conf.isNull then .ok none
    else do
      let value ← c.parse c.init conf frame
      .ok (some value)
  dump x out :=
    match x with
    | some value => c.dump value out
    | none => .ok .invalid
  populateSchema _ :=
    let populated := c.populateSchema c.init
    (some populated.1, .map [(latin1 (text "[optional]"), populated.2)])

/-- `OptionalPtr<T>`. What is absent leaves the variant as it is, and the schema is made from an
optional of its own. -/
def optionalPtr : Template (Option T) where
  init := none
  parse _ conf frame :=
    if conf.isNull then .ok none
    else do
      let value ← c.parse c.init conf frame
      .ok (some value)
  dump x out :=
    match x with
    | some value => c.dump value out
    | none => .ok out
  populateSchema x := (x, ((optional c).populateSchema none).2)

/-- The parse of the items of a list. The items that are there are parsed over, and the others are
new. -/
def parseItems : (i : ℕ) → (out : List T) → List Conf → TraceFrame → Except ParseError (List T)
  | _, _, [], _ => .ok []
  | i, out, conf :: rest, frame => do
      let value ← c.parse (out.head?.getD c.init) conf (frame ++ [.index i])
      let values ← parseItems (i + 1) out.tail rest frame
      .ok (value :: values)

/-- The dump of the items of a list. -/
def dumpItems : List T → Except Bytes (List Conf)
  | [] => .ok []
  | x :: rest => do
      let item ← c.dump x .invalid
      let items ← dumpItems rest
      .ok (item :: items)

/-- `std::vector<T>`. A vector of texts also takes a `QStringList`, by the conversion `ofString`. -/
def vector (ofString : Option (QString → T)) : Template (List T) where
  init := []
  parse out conf frame :=
    match conf, ofString with
    | .stringList items, some f => .ok (items.map f)
    | .list items, _ => parseItems c 0 out items frame
    | .map [], _ => .ok out
    | conf, _ => .error ⟨frame, text "Non-array config passed (" ++ typeNameOf conf ++ text ")"⟩
  dump x _ := do
    let res ← dumpItems c x
    .ok (.list res)
  populateSchema x :=
    let populated := c.populateSchema c.init
    (x ++ [populated.1], .list [populated.2])

/-- The type of the keys of a map, with its conversions from and to text and its order. -/
structure KeyType (K : Type) [LT K] where
  ofQString : QString → K
  toQString : K → QString
  init : K

/-- `std::string` as a key. -/
def stringKey : KeyType Bytes where
  ofQString := toStdString
  toQString := fromUtf8
  init := []

/-- `QString` as a key. -/
def qStringKey : KeyType QString where
  ofQString := id
  toQString := id
  init := []

variable {K : Type} [LT K] [DecidableEq K] [DecidableLT K] (key : KeyType K)

/-- The parse of the entries of a map, in ascending order of their keys. -/
def parseEntries : List (K × T) → List (QString × Conf) → TraceFrame →
    Except ParseError (List (K × T))
  | out, [], _ => .ok out
  | out, (q, conf) :: rest, frame => do
      let k := key.ofQString q
      let value ← c.parse ((out.lookup k).getD c.init) conf (frame ++ [.key (toStdString q)])
      parseEntries (Library.Sorted.assign k value out) rest frame

/-- The dump of the entries of a map. -/
def dumpEntries : List (K × T) → List (QString × Conf) → Except Bytes (List (QString × Conf))
  | [], res => .ok res
  | (k, x) :: rest, res => do
      let q := key.toQString k
      let item ← c.dump x (Conf.value res q)
      dumpEntries rest (Library.Sorted.assign q item res)

/-- `std::map<K, T>`. -/
def mapOf : Template (List (K × T)) where
  init := []
  parse _ conf frame :=
    match conf with
    | .map entries => parseEntries c key [] entries frame
    | conf => .error ⟨frame, text "Cannot parse map from " ++ typeNameOf conf⟩
  dump x _ := do
    let res ← dumpEntries c key x []
    .ok (.map res)
  populateSchema x :=
    let populated := c.populateSchema ((x.lookup key.init).getD c.init)
    (Library.Sorted.assign key.init populated.1 x,
      .map [(latin1 (text "<key>"), populated.2)])

end Containers

end Radapter.Config
