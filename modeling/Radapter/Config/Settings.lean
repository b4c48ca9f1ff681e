import Radapter.Config.Schema
import Radapter.Modbus.Device
import Radapter.Modbus.Prepare

/-!
# The settings of the Modbus workers

The described structs of the masters and their serial devices, each member with the overload that
its type has. A struct that inherits from another has the members of that one first.
-/

namespace Radapter.Config

open Library

section Builders

variable {S T : Type}

/-- A described member. -/
def member (name : String) (template : Template T) (access : Access S T) : Part Member S :=
  ⟨T, access, ⟨text name, template⟩⟩

/-- The members of a struct that is inherited from. -/
def inherited (parent : Access S T) (members : List (Part Member T)) : List (Part Member S) :=
  members.map fun m => ⟨m.Carrier, parent.comp m.access, m.info⟩

/-- The characters of an identifier, as far as it matters: none of another alphabet and no mark. -/
def isPlain (name : Bytes) : Bool := name.all fun b => b < 128 && b != 91

/-- An identifier has bytes of ASCII only, and no bracket. -/
theorem isPlain_iff {name : Bytes} : isPlain name = true ↔ ∀ b ∈ name, b < 128 ∧ b ≠ 91 := by
  simp [isPlain, List.all_eq_true]

/-- A description from its members and their names. -/
def describe (name : String) (init : S) (members : List (Part Member S)) (names : List String)
    (hnames : members.map (fun m => m.info.name) = names.map text)
    (hplain : (names.map text).Nodup ∧ (names.map text).all isPlain = true)
    (hapart : Part.AllApart members) : Description S where
  name := text name
  init := init
  members := members
  names_nodup := hnames ▸ hplain.1
  names_plain m hm := isPlain_iff.mp
    (List.all_eq_true.mp hplain.2 m.info.name (hnames ▸ List.mem_map_of_mem hm))
  members_apart := hapart.pairwise

end Builders

namespace Settings

variable (qt : Qt)

/-! ## Registers -/

/-- `DESCRIBE("modbus::ByteOrder")`. -/
def ByteOrder : Enumeration Modbus.ByteOrder where
  name := text "modbus::ByteOrder"
  enumerators := [(text "big", .big), (text "little", .little)]
  underlying
    | .big => 0
    | .little => 1
  init := .big

/-- `DESCRIBE("modbus::RegisterMode")`. -/
def RegisterMode : Enumeration Modbus.RegisterMode where
  name := text "modbus::RegisterMode"
  enumerators := [(text "r", .read), (text "rw", .read_write), (text "w", .write),
    (text "read", .read), (text "readwrite", .read_write), (text "write", .write)]
  underlying
    | .defaultMode => 0
    | .read => 1
    | .read_write => 2
    | .write => 3
  init := .defaultMode

/-- `DESCRIBE("modbus::RegisterValueType")`. -/
def RegisterValueType : Enumeration Modbus.RegisterValueType where
  name := text "modbus::RegisterValueType"
  enumerators := [(text "uint16", .uint16), (text "uint32", .uint32), (text "float32", .float32)]
  underlying
    | .defaultValueType => 0
    | .uint16 => 1
    | .uint32 => 2
    | .float32 => 3
    | .bit => 4
  init := .defaultValueType

/-- `DESCRIBE("modbus::RegisterPacking")`. -/
def registerPacking : Description Modbus.RegisterPacking :=
  describe "modbus::RegisterPacking" {}
    [member "byte" (withDefault (enumeration qt ByteOrder))
      ⟨(·.byte), fun x s => { s with byte := x }, fun _ _ => rfl, fun _ => rfl⟩,
    member "word" (withDefault (enumeration qt ByteOrder))
      ⟨(·.word), fun x s => { s with word := x }, fun _ _ => rfl, fun _ => rfl⟩]
    ["byte", "word"] rfl (by decide) (by repeat' first | intro _ | constructor)

/-- `Register`. -/
structure Register where
  index : BitVec 32
  packing : Modbus.RegisterPacking := {}
  type : Modbus.RegisterValueType := .defaultValueType
  mode : Modbus.RegisterMode := .defaultMode
  validator : Option ℕ := none

/-- `DESCRIBE("modbus::Register")`. -/
def register : Description Register :=
  describe "modbus::Register" { index := 0 }
    [member "index" (number qt .int)
      ⟨(·.index), fun x s => { s with index := x }, fun _ _ => rfl, fun _ => rfl⟩,
    member "packing" (withDefault (registerPacking qt).template)
      ⟨(·.packing), fun x s => { s with packing := x }, fun _ _ => rfl, fun _ => rfl⟩,
    member "type" (withDefault (enumeration qt RegisterValueType))
      ⟨(·.type), fun x s => { s with type := x }, fun _ _ => rfl, fun _ => rfl⟩,
    member "mode" (withDefault (enumeration qt RegisterMode))
      ⟨(·.mode), fun x s => { s with mode := x }, fun _ _ => rfl, fun _ => rfl⟩,
    member "validator" (optionalPtr (luaFunction qt))
      ⟨(·.validator), fun x s => { s with validator := x }, fun _ _ => rfl, fun _ => rfl⟩]
    ["index", "packing", "type", "mode", "validator"] rfl (by decide)
    (by repeat' first | intro _ | constructor)

/-- `RegistersMap`. -/
structure RegistersMap where
  di : List (Bytes × Register) := []
  holding : List (Bytes × Register) := []
  input : List (Bytes × Register) := []
  coils : List (Bytes × Register) := []

/-- `SingleTypeMap`. -/
def singleTypeMap : Template (List (Bytes × Register)) := mapOf (register qt).template stringKey

/-- `DESCRIBE("modbus::RegistersMap")`. -/
def registersMap : Description RegistersMap :=
  describe "modbus::RegistersMap" {}
    [member "di" (withDefault (singleTypeMap qt))
      ⟨(·.di), fun x s => { s with di := x }, fun _ _ => rfl, fun _ => rfl⟩,
    member "holding" (withDefault (singleTypeMap qt))
      ⟨(·.holding), fun x s => { s with holding := x }, fun _ _ => rfl, fun _ => rfl⟩,
    member "input" (withDefault (singleTypeMap qt))
      ⟨(·.input), fun x s => { s with input := x }, fun _ _ => rfl, fun _ => rfl⟩,
    member "coils" (withDefault (singleTypeMap qt))
      ⟨(·.coils), fun x s => { s with coils := x }, fun _ _ => rfl, fun _ => rfl⟩]
    ["di", "holding", "input", "coils"] rfl (by decide)
    (by repeat' first | intro _ | constructor)

/-! ## Devices -/

/-- `DESCRIBE("modbus::OverflowBehaviour")`. -/
def OverflowBehaviour : Enumeration Modbus.OverflowBehaviour where
  name := text "modbus::OverflowBehaviour"
  enumerators := [(text "pop_last", .pop_last), (text "pop_first", .pop_first)]
  underlying
    | .pop_last => 0
    | .pop_first => 1
  init := .pop_last

/-- `Device`. -/
structure Device where
  name : Bytes := []
  frame_gap : BitVec 32 := 25
  max_write_queue : BitVec 32 := 100
  max_read_queue : BitVec 32 := 50
  reconnect_timeout_ms : BitVec 32 := 1000
  on_read_overflow : Modbus.OverflowBehaviour := .pop_first
  on_write_overflow : Modbus.OverflowBehaviour := .pop_first

/-- The members of `DESCRIBE("modbus::Device")`. -/
def deviceMembers : List (Part Member Device) :=
  [member "name" (withDefault (string qt))
    ⟨(·.name), fun x s => { s with name := x }, fun _ _ => rfl, fun _ => rfl⟩,
  member "frame_gap" (withDefault (number qt .uint))
    ⟨(·.frame_gap), fun x s => { s with frame_gap := x }, fun _ _ => rfl, fun _ => rfl⟩,
  member "max_write_queue" (withDefault (number qt .uint))
    ⟨(·.max_write_queue), fun x s => { s with max_write_queue := x }, fun _ _ => rfl, fun _ => rfl⟩,
  member "max_read_queue" (withDefault (number qt .uint))
    ⟨(·.max_read_queue), fun x s => { s with max_read_queue := x }, fun _ _ => rfl, fun _ => rfl⟩,
  member "reconnect_timeout_ms" (withDefault (number qt .uint))
    ⟨(·.reconnect_timeout_ms), fun x s => { s with reconnect_timeout_ms := x }, fun _ _ => rfl,
      fun _ => rfl⟩,
  member "on_read_overflow" (withDefault (enumeration qt OverflowBehaviour))
    ⟨(·.on_read_overflow), fun x s => { s with on_read_overflow := x }, fun _ _ => rfl,
      fun _ => rfl⟩,
  member "on_write_overflow" (withDefault (enumeration qt OverflowBehaviour))
    ⟨(·.on_write_overflow), fun x s => { s with on_write_overflow := x }, fun _ _ => rfl,
      fun _ => rfl⟩]

/-- `RtuDevice`. -/
structure RtuDevice extends Device where
  port : Bytes
  byte_order : Modbus.ByteOrder := .little
  data_bits : BitVec 32 := 8
  baud : BitVec 32 := 115200
  parity : BitVec 32 := 0
  stop_bits : BitVec 32 := 1

/-- `DESCRIBE("modbus::RtuDevice")`. -/
def rtuDevice : Description RtuDevice :=
  describe "modbus::RtuDevice" { port := [] }
    (inherited ⟨(·.toDevice), fun x s => { s with toDevice := x }, fun _ _ => rfl, fun _ => rfl⟩
      (deviceMembers qt) ++
    [member "port" (string qt)
      ⟨(·.port), fun x s => { s with port := x }, fun _ _ => rfl, fun _ => rfl⟩,
    member "byte_order" (withDefault (enumeration qt ByteOrder))
      ⟨(·.byte_order), fun x s => { s with byte_order := x }, fun _ _ => rfl, fun _ => rfl⟩,
    member "data_bits" (withDefault (number qt .uint))
      ⟨(·.data_bits), fun x s => { s with data_bits := x }, fun _ _ => rfl, fun _ => rfl⟩,
    member "baud" (withDefault (number qt .uint))
      ⟨(·.baud), fun x s => { s with baud := x }, fun _ _ => rfl, fun _ => rfl⟩,
    member "parity" (withDefault (number qt .uint))
      ⟨(·.parity), fun x s => { s with parity := x }, fun _ _ => rfl, fun _ => rfl⟩,
    member "stop_bits" (withDefault (number qt .uint))
      ⟨(·.stop_bits), fun x s => { s with stop_bits := x }, fun _ _ => rfl, fun _ => rfl⟩])
    ["name", "frame_gap", "max_write_queue", "max_read_queue", "reconnect_timeout_ms",
      "on_read_overflow", "on_write_overflow", "port", "byte_order",
      "data_bits", "baud", "parity", "stop_bits"] rfl
    (by decide) (by repeat' first | intro _ | constructor)

/-! ## Workers -/

/-- `radapter::WorkerConfig`. -/
structure WorkerConfig where
  name : Option QString := none
  category : Option QString := none
  generated_name : Bool := false

/-- The members of `DESCRIBE("WorkerConfig")`, which leaves `generated_name` out. -/
def workerMembers : List (Part Member WorkerConfig) :=
  [member "name" (optional (qString qt))
    ⟨(·.name), fun x s => { s with name := x }, fun _ _ => rfl, fun _ => rfl⟩,
  member "category" (optional (qString qt))
    ⟨(·.category), fun x s => { s with category := x }, fun _ _ => rfl, fun _ => rfl⟩]

/-- `modbus::RegisterType`. -/
def RegisterType : Enumeration Modbus.QueryType where
  name := text "modbus::RegisterType"
  enumerators := [(text "holding", .holding), (text "coil", .coil), (text "di", .di),
    (text "discrete_input", .di), (text "input", .input)]
  underlying
    | .holding => 0
    | .coil => 1
    | .di => 2
    | .input => 3
  init := .holding

/-- `DESCRIBE("modbus::ManualQuery")`. -/
def manualQuery : Description Modbus.ManualQuery :=
  describe "modbus::ManualQuery" ⟨.holding, 0, 0⟩
    [member "type" (enumeration qt RegisterType)
      ⟨(·.type), fun x s => { s with type := x }, fun _ _ => rfl, fun _ => rfl⟩,
    member "index" (number qt .uint)
      ⟨(·.index), fun x s => { s with index := x }, fun _ _ => rfl, fun _ => rfl⟩,
    member "count" (number qt .uint)
      ⟨(·.count), fun x s => { s with count := x }, fun _ _ => rfl, fun _ => rfl⟩]
    ["type", "index", "count"] rfl (by decide)
    (by repeat' first | intro _ | constructor)

/-- `modbus::MasterConfig`, with what it inherits from `modbus::WorkerConfig`. -/
structure MasterConfig extends WorkerConfig where
  registers : RegistersMap
  slave_id : BitVec 16
  device : Option Object
  response_time : BitVec 32 := 150
  poll_rate : BitVec 32 := 500
  write_retries : BitVec 32 := 3
  queries : Option (List Modbus.ManualQuery) := none

/-- `DESCRIBE("modbus::MasterConfig")`. -/
def masterConfig : Description MasterConfig :=
  describe "modbus::MasterConfig" { registers := {}, slave_id := 0, device := none }
    (inherited ⟨(·.toWorkerConfig), fun x s => { s with toWorkerConfig := x }, fun _ _ => rfl,
      fun _ => rfl⟩ (workerMembers qt) ++
    [member "registers" ((registersMap qt).template)
      ⟨(·.registers), fun x s => { s with registers := x }, fun _ _ => rfl, fun _ => rfl⟩,
    member "slave_id" (number qt .ushort)
      ⟨(·.slave_id), fun x s => { s with slave_id := x }, fun _ _ => rfl, fun _ => rfl⟩,
    member "device" (customObject qt "radapter::modbus::MasterDevice")
      ⟨(·.device), fun x s => { s with device := x }, fun _ _ => rfl, fun _ => rfl⟩,
    member "response_time" (withDefault (number qt .uint))
      ⟨(·.response_time), fun x s => { s with response_time := x }, fun _ _ => rfl, fun _ => rfl⟩,
    member "poll_rate" (withDefault (number qt .uint))
      ⟨(·.poll_rate), fun x s => { s with poll_rate := x }, fun _ _ => rfl, fun _ => rfl⟩,
    member "write_retries" (withDefault (number qt .uint))
      ⟨(·.write_retries), fun x s => { s with write_retries := x }, fun _ _ => rfl, fun _ => rfl⟩,
    member "queries" (optional (vector (manualQuery qt).template none))
      ⟨(·.queries), fun x s => { s with queries := x }, fun _ _ => rfl, fun _ => rfl⟩])
    ["name", "category", "registers", "slave_id", "device", "response_time", "poll_rate",
      "write_retries", "queries"] rfl
    (by decide) (by repeat' first | intro _ | constructor)

/-! ## The settings are described -/

section Described

variable {qt} {S T : Type} {name : String} {template : Template T} {access : Access S T}
  {rest : List (Part Member S)}

/-- No member is left to have a template of its own. -/
theorem overload_nil : ∀ m ∈ ([] : List (Part Member S)), Overload qt m.info.template :=
  fun _ hm => absurd hm List.not_mem_nil

/-- The members of a struct are described one by one. -/
theorem overload_cons : (∀ m ∈ member name template access :: rest, Overload qt m.info.template) ↔
    Overload qt template ∧ ∀ m ∈ rest, Overload qt m.info.template :=
  List.forall_mem_cons

/-- An inherited member has the template it has in the parent. -/
theorem overload_inherited {parent : Access S T} {members : List (Part Member T)} :
    (∀ m ∈ inherited parent members ++ rest, Overload qt m.info.template) ↔
      (∀ m ∈ members, Overload qt m.info.template) ∧
        ∀ m ∈ rest, Overload qt m.info.template := by
  rw [List.forall_mem_append, inherited, List.forall_mem_map]

/-- What the members of a struct hold is stored one by one. -/
theorem storable_cons {s : S} :
    (∀ m ∈ member name template access :: rest, Storable qt m.info.template (m.access.get s)) ↔
      Storable qt template (access.get s) ∧
        ∀ m ∈ rest, Storable qt m.info.template (m.access.get s) :=
  List.forall_mem_cons

/-- No member is left to be stored. -/
theorem storable_nil {s : S} :
    ∀ m ∈ ([] : List (Part Member S)), Storable qt m.info.template (m.access.get s) :=
  fun _ hm => absurd hm List.not_mem_nil

/-- `QString` is among the described types. -/
theorem overload_qString : Overload qt (qString qt) := .converted _ _ _ _ _ (by decide)

/-- So is a Lua function. -/
theorem overload_luaFunction : Overload qt (luaFunction qt) := .converted _ _ _ _ _ (by decide)

/-- The packing of a register has enumerators alone. -/
theorem overload_registerPacking : Overload qt (registerPacking qt).template := by
  refine .struct _ ?_
  simp only [registerPacking, describe, overload_cons]
  exact ⟨.withDefault _ (.enumeration _), .withDefault _ (.enumeration _), overload_nil⟩

/-- A register has numbers, enumerators and its packing. -/
theorem overload_register : Overload qt (register qt).template := by
  refine .struct _ ?_
  simp only [register, describe, overload_cons]
  exact ⟨.number _, .withDefault _ overload_registerPacking, .withDefault _ (.enumeration _),
    .withDefault _ (.enumeration _), .optionalPtr _ overload_luaFunction, overload_nil⟩

/-- The registers map has four maps of registers. -/
theorem overload_registersMap : Overload qt (registersMap qt).template := by
  refine .struct _ ?_
  simp only [registersMap, describe, overload_cons]
  have hmap : Overload qt (singleTypeMap qt) := .mapOf _ _ overload_register
  exact ⟨.withDefault _ hmap, .withDefault _ hmap, .withDefault _ hmap, .withDefault _ hmap,
    overload_nil⟩

/-- What every worker can be given is described. -/
theorem overload_workerMembers : ∀ m ∈ workerMembers qt, Overload qt m.info.template := by
  simp only [workerMembers, overload_cons]
  exact ⟨.optional _ overload_qString, .optional _ overload_qString, overload_nil⟩

/-- A query of the user's has two numbers and an enumerator. -/
theorem overload_manualQuery : Overload qt (manualQuery qt).template := by
  refine .struct _ ?_
  simp only [manualQuery, describe, overload_cons]
  exact ⟨.enumeration _, .number _, .number _, overload_nil⟩

/-- The whole configuration of a master is described, what it inherits included. -/
theorem overload_masterConfig : Overload qt (masterConfig qt).template := by
  refine .struct _ (overload_inherited.mpr ⟨overload_workerMembers, ?_⟩)
  simp only [overload_cons]
  exact ⟨overload_registersMap, .number _, .customObject _ (by decide), .withDefault _ (.number _),
    .withDefault _ (.number _), .withDefault _ (.number _),
    .optional _ (.vector _ none overload_manualQuery), overload_nil⟩

/-! ## Settings that can be stored -/

/-- The description of a packing names all its data members. -/
theorem covers_registerPacking : (registerPacking qt).Covers := by
  intro s s' h
  simp only [registerPacking, describe, List.forall_mem_cons] at h
  obtain ⟨hbyte, hword, -⟩ := h
  cases s
  cases s'
  simp_all [member]

/-- The description of a register names all its data members. -/
theorem covers_register : (register qt).Covers := by
  intro s s' h
  simp only [register, describe, List.forall_mem_cons] at h
  obtain ⟨hindex, hpacking, htype, hmode, hvalidator, -⟩ := h
  cases s
  cases s'
  simp_all [member]

/-- The description of a registers map names all its data members. -/
theorem covers_registersMap : (registersMap qt).Covers := by
  intro s s' h
  simp only [registersMap, describe, List.forall_mem_cons] at h
  obtain ⟨hdi, hholding, hinput, hcoils, -⟩ := h
  cases s
  cases s'
  simp_all [member]

/-- The description of a device names all its data members, those of its base included. -/
theorem covers_rtuDevice : (rtuDevice qt).Covers := by
  intro s s' h
  simp only [rtuDevice, describe, inherited, deviceMembers, List.map_cons, List.map_nil,
    List.cons_append, List.nil_append, List.forall_mem_cons] at h
  obtain ⟨hname, hgap, hwrites, hreads, hreconnect, hreadOver, hwriteOver, hport, horder, hdata,
    hbaud, hparity, hstop, -⟩ := h
  obtain ⟨⟨⟩⟩ := s
  obtain ⟨⟨⟩⟩ := s'
  simp_all [member, Access.comp]

/-- A master's table has a member that is not described. -/
theorem not_covers_masterConfig : ¬ (masterConfig qt).Covers := by
  intro h
  have hsame : (⟨{}, {}, 0, none, 150, 500, 3, none⟩ : MasterConfig) =
      ⟨{ generated_name := true }, {}, 0, none, 150, 500, 3, none⟩ := by
    apply h
    simp only [masterConfig, describe, inherited, workerMembers, List.map_cons, List.map_nil,
      List.cons_append, List.nil_append, List.forall_mem_cons]
    exact ⟨rfl, rfl, rfl, rfl, rfl, rfl, rfl, rfl, rfl, fun _ hm => absurd hm List.not_mem_nil⟩
  cases congrArg (fun s : MasterConfig => s.generated_name) hsame

/-- An enumerator is dumped as its name. -/
theorem dumpsValue_enumeration {E : Type} [DecidableEq E] (e : Enumeration E) (x : E) :
    DumpsValue (enumeration qt e) x := by
  intro conf hdump
  simp only [enumeration] at hdump
  split at hdump
  · cases hdump
    rfl
  · cases hdump

/-- A struct is dumped as a map, empty or not. -/
theorem dumpsValue_struct {S : Type} (d : Description S) (s : S) : DumpsValue d.template s := by
  intro conf hdump
  obtain ⟨map, -, hdump⟩ := bind_eq_ok.mp hdump
  cases hdump
  rfl

/-- A map is dumped as a map, empty or not. -/
theorem dumpsValue_mapOf {K : Type} [LT K] [DecidableEq K] [DecidableLT K] (c : Template T)
    (key : KeyType K) (entries : List (K × T)) : DumpsValue (mapOf c key) entries := by
  intro conf hdump
  obtain ⟨res, -, hdump⟩ := bind_eq_ok.mp hdump
  cases hdump
  rfl

/-- Both byte orders have a name. -/
theorem storable_byteOrder (order : Modbus.ByteOrder) :
    Storable qt (withDefault (enumeration qt ByteOrder)) order := by
  refine .withDefault _ _ ?_ (dumpsValue_enumeration _ _)
  cases order with
  | big => exact .enumeration _ _ (text "big") rfl rfl (by decide)
  | little => exact .enumeration _ _ (text "little") rfl rfl (by decide)

/-- Every mode has a name. -/
theorem storable_overflowBehaviour (mode : Modbus.OverflowBehaviour) :
    Storable qt (withDefault (enumeration qt OverflowBehaviour)) mode := by
  refine .withDefault _ _ ?_ (dumpsValue_enumeration _ _)
  cases mode with
  | pop_last => exact .enumeration _ _ (text "pop_last") rfl rfl (by decide)
  | pop_first => exact .enumeration _ _ (text "pop_first") rfl rfl (by decide)

/-- Every number can be stored. -/
theorem storable_defaultNumber (t : IntegerType) (n : BitVec t.width) :
    Storable qt (withDefault (number qt t)) n := by
  refine .withDefault _ _ (.number t n) fun conf hdump => ?_
  cases hdump
  rfl

/-- Every packing can be stored. -/
theorem storable_registerPacking (packing : Modbus.RegisterPacking) :
    Storable qt (registerPacking qt).template packing := by
  refine .struct _ _ covers_registerPacking ?_
  simp only [registerPacking, describe, storable_cons]
  exact ⟨storable_byteOrder _, storable_byteOrder _, storable_nil⟩

/-- A register whose type and mode were chosen. -/
def Register.Chosen (r : Register) : Prop :=
  r.type ≠ .defaultValueType ∧ r.type ≠ .bit ∧ r.mode ≠ .defaultMode

/-- A register can be stored once its type and mode have names. -/
theorem storable_register {r : Register} (h : r.Chosen) :
    Storable qt (register qt).template r := by
  obtain ⟨hdefault, hbit, hmode⟩ := h
  refine .struct _ _ covers_register ?_
  simp only [register, describe, storable_cons]
  have htypeNamed : Storable qt (enumeration qt RegisterValueType) r.type := by
    cases htype : r.type with
    | defaultValueType => exact absurd htype hdefault
    | bit => exact absurd htype hbit
    | uint16 => exact .enumeration _ _ (text "uint16") rfl rfl (by decide)
    | uint32 => exact .enumeration _ _ (text "uint32") rfl rfl (by decide)
    | float32 => exact .enumeration _ _ (text "float32") rfl rfl (by decide)
  have hmodeNamed : Storable qt (enumeration qt RegisterMode) r.mode := by
    cases hm : r.mode with
    | defaultMode => exact absurd hm hmode
    | read => exact .enumeration _ _ (text "r") rfl rfl (by decide)
    | read_write => exact .enumeration _ _ (text "rw") rfl rfl (by decide)
    | write => exact .enumeration _ _ (text "w") rfl rfl (by decide)
  refine ⟨.number _ _, .withDefault _ _ (storable_registerPacking _) (dumpsValue_struct _ _),
    .withDefault _ _ htypeNamed (dumpsValue_enumeration _ _),
    .withDefault _ _ hmodeNamed (dumpsValue_enumeration _ _), ?_, storable_nil⟩
  cases hvalidator : r.validator with
  | none => exact .optionalPtrNone _
  | some f =>
    refine .optionalPtrSome _ _ (.luaFunction f) fun conf hdump => ?_
    cases hdump
    rfl

/-- The registers of one type, with keys in order that are UTF-8. -/
def Complete (registers : List (Bytes × Register)) : Prop :=
  Sorted.Ascending registers ∧
    ∀ e ∈ registers, toStdString (fromUtf8 e.1) = e.1 ∧ e.2.Chosen

/-- So can a map of them whose names are UTF-8 and in order. -/
theorem storable_singleTypeMap {registers : List (Bytes × Register)} (h : Complete registers) :
    Storable qt (withDefault (singleTypeMap qt)) registers :=
  .withDefault _ _ (.stringMap _ _ h.1 (fun e he => (h.2 e he).1)
    fun e he => storable_register (h.2 e he).2) (dumpsValue_mapOf _ _ _)

/-- The registers of a worker can be stored once the type and the mode of each are chosen. -/
theorem storable_registersMap {registers : RegistersMap} (hdi : Complete registers.di)
    (hholding : Complete registers.holding) (hinput : Complete registers.input)
    (hcoils : Complete registers.coils) : Storable qt (registersMap qt).template registers := by
  refine .struct _ _ covers_registersMap ?_
  simp only [registersMap, describe, storable_cons]
  exact ⟨storable_singleTypeMap hdi, storable_singleTypeMap hholding,
    storable_singleTypeMap hinput, storable_singleTypeMap hcoils, storable_nil⟩

/-- A serial device can be stored once its name and its port are UTF-8. -/
theorem storable_rtuDevice {d : RtuDevice} (hname : toStdString (fromUtf8 d.name) = d.name)
    (hport : toStdString (fromUtf8 d.port) = d.port) : Storable qt (rtuDevice qt).template d := by
  refine .struct _ _ covers_rtuDevice ?_
  simp only [rtuDevice, describe, inherited, deviceMembers, List.map_cons, List.map_nil,
    List.cons_append, List.nil_append, List.forall_mem_cons]
  have hshown : DumpsValue (string qt) d.name := by
    intro conf hdump
    cases hdump
    rfl
  exact ⟨.withDefault _ _ (.string _ hname) hshown, storable_defaultNumber _ _,
    storable_defaultNumber _ _, storable_defaultNumber _ _, storable_defaultNumber _ _,
    storable_overflowBehaviour _, storable_overflowBehaviour _, .string _ hport,
    storable_byteOrder _, storable_defaultNumber _ _, storable_defaultNumber _ _,
    storable_defaultNumber _ _, storable_defaultNumber _ _, storable_nil⟩

end Described

end Settings

end Radapter.Config
