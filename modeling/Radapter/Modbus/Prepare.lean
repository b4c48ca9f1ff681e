import Radapter.Modbus.Master
import Radapter.Library.Results
import Mathlib.Data.List.Nodup

/-!
# Preparing a master

The constructor of a `Master` checks the four register tables of its configuration and completes
them, sorts the readable registers of each table by their indices, and merges those that touch into
reads, unless the configuration has queries of its own.
-/

namespace Radapter.Modbus

open Library

/-! ## Configuration -/

inductive RegisterMode where
  | defaultMode
  | read
  | read_write
  | write
  deriving DecidableEq, Repr

/-- `Register`, with the defaults of the configuration. The index is an `int`, and `addInt` gives
its sums. -/
structure Register where
  index : ℤ
  packing : RegisterPacking := {}
  type : RegisterValueType := .defaultValueType
  mode : RegisterMode := .defaultMode
  validator : Option LuaFunction := none

/-- `SingleTypeMap`, in the order of a `std::map`. -/
structure SingleTypeMap (ρ : Type) where
  entries : List (Bytes × ρ)
  ascending : (entries.map Prod.fst).Pairwise (· < ·)

/-- `RegistersMap`. -/
structure RegistersMap (ρ : Type) where
  di : SingleTypeMap ρ
  holding : SingleTypeMap ρ
  input : SingleTypeMap ρ
  coils : SingleTypeMap ρ

/-- `modbus::RegisterType`, the type of a query. -/
inductive QueryType where
  | holding
  | coil
  | di
  | input
  deriving DecidableEq, Repr

/-- `enum_to_name` of the type of a query. -/
def QueryType.name : QueryType → String
  | .holding => "holding"
  | .coil => "coil"
  | .di => "di"
  | .input => "input"

/-- `ManualQuery`. -/
structure ManualQuery where
  type : QueryType
  index : BitVec 32
  count : BitVec 32

/-- The part of `MasterConfig` that the registers are prepared from. -/
structure MasterConfig where
  registers : RegistersMap Register
  queries : Option (List ManualQuery)

/-! ## Errors -/

inductive Argument where
  | key (k : Bytes)
  | name (s : String)
  | number (n : ℤ)
  deriving DecidableEq

/-- What `Raise` is called with. -/
structure Raised where
  format : String
  args : List Argument
  deriving DecidableEq

/-! ## Validation -/

def validateReadOnly (key : Bytes) (reg : Register) (type : String) : Except Raised Unit :=
  if reg.mode = .write ∨ reg.mode = .read_write then
    .error ⟨"Register {}: {} registers cannot be writable", [.key key, .name type]⟩
  else .ok ()

def validateSingleBit (key : Bytes) (reg : Register) (type : String) : Except Raised Unit :=
  if reg.type ≠ .defaultValueType ∧ reg.type ≠ .bit then
    .error ⟨"Register {}: {} registers cannot have a type (single bit only)",
      [.key key, .name type]⟩
  else .ok ()

/-- A register that has been given a type. -/
abbrev ValidRegister := { reg : Register // reg.type ≠ .defaultValueType }

/-- The register as one bit. -/
def Register.asBit (reg : Register) (mode : RegisterMode) : ValidRegister :=
  ⟨{ reg with mode := mode, type := .bit, packing := {} }, nofun⟩

/-- The register with the defaults of the word tables. -/
def Register.asWords (reg : Register) : ValidRegister :=
  ⟨{ reg with
      mode := if reg.mode = .defaultMode then .read_write else reg.mode
      type := if reg.type = .defaultValueType then .uint16 else reg.type },
    by
      dsimp only
      split_ifs with h
      · exact nofun
      · exact h⟩

/-- The entries of a table after a loop that changes each of them. -/
def SingleTypeMap.update {ρ ρ' : Type} (f : ρ → ρ') (map : SingleTypeMap ρ) : SingleTypeMap ρ' where
  entries := map.entries.map (fun entry => (entry.1, f entry.2))
  ascending := by
    rw [List.map_map]
    exact map.ascending

/-- `validateRegisters`. -/
def validateRegisters (regs : RegistersMap Register) :
    Except Raised (RegistersMap ValidRegister) := do
  regs.di.entries.forM (fun entry => do
    validateReadOnly entry.1 entry.2 "Discrete Input"
    validateSingleBit entry.1 entry.2 "Discrete Input")
  regs.coils.entries.forM (fun entry => validateSingleBit entry.1 entry.2 "Coils")
  regs.input.entries.forM (fun entry => validateReadOnly entry.1 entry.2 "Input")
  return {
    di := regs.di.update (fun reg => reg.asBit .read)
    coils := regs.coils.update (fun reg => reg.asBit reg.mode)
    input := regs.input.update Register.asWords
    holding := regs.holding.update Register.asWords }

/-! ## Sorting -/

/-- A prepared register with a type. -/
abbrev TypedRegister := { reg : PreparedRegister // reg.type ≠ .defaultValueType }

def prepared (key : Bytes) (reg : ValidRegister) : TypedRegister :=
  ⟨{ key := key
     type := reg.1.type
     packing := reg.1.packing
     validator := reg.1.validator
     index := reg.1.index }, reg.2⟩

/-- An insertion at the `lower_bound` of a vector that is sorted by index, after a check against the
element there. -/
def insertBy {ρ : Type} (index : ρ → ℤ) (check : ρ → Except Raised Unit) (reg : ρ) :
    List ρ → Except Raised (List ρ)
  | [] => .ok [reg]
  | it :: rest =>
      if index it < index reg then (insertBy index check reg rest).map (it :: ·)
      else (check it).map (fun _ => reg :: it :: rest)

/-- An insertion adds the one element. -/
theorem insertBy_perm {ρ : Type} {index : ρ → ℤ} {check : ρ → Except Raised Unit} {reg : ρ}
    {regs out : List ρ} (h : insertBy index check reg regs = .ok out) : out.Perm (reg :: regs) := by
  induction regs generalizing out with
  | nil =>
    cases h
    exact List.Perm.refl _
  | cons it rest ih =>
    rw [insertBy] at h
    split_ifs at h
    · obtain ⟨inserted, hinserted, rfl⟩ := map_eq_ok.mp h
      exact ((ih hinserted).cons it).trans (List.Perm.swap reg it rest)
    · obtain ⟨-, -, rfl⟩ := map_eq_ok.mp h
      exact List.Perm.refl _

/-- Insertions in turn add their elements. -/
theorem foldlM_insertBy_perm {ε ρ : Type} {index : ρ → ℤ} (check : ρ → ρ → Except Raised Unit)
    {f : ε → ρ} {entries : List ε} {sorted out : List ρ}
    (h : entries.foldlM (fun sorted entry =>
      insertBy index (check (f entry)) (f entry) sorted) sorted = .ok out) :
    out.Perm (entries.map f ++ sorted) := by
  induction entries generalizing sorted with
  | nil =>
    cases h
    exact List.Perm.refl _
  | cons entry rest ih =>
    rw [List.foldlM_cons] at h
    obtain ⟨inserted, hinserted, h⟩ := bind_eq_ok.mp h
    have hrest := (ih h).trans ((insertBy_perm hinserted).append_left (rest.map f))
    exact hrest.trans List.perm_middle

/-- The sum of an index and a size as an `int`: beyond the range of an `int` it wraps. -/
def addInt (index : ℤ) (size : ℕ) : ℤ :=
  if index + size < 2 ^ 31 then index + size else index + size - 2 ^ 32

/-- A sum within the range of an `int` is the sum. -/
theorem addInt_of_lt {index : ℤ} {size : ℕ} (h : index + size < 2 ^ 31) :
    addInt index size = index + size := if_pos h

/-- A sum that wraps is below the exact one. -/
theorem addInt_le (index : ℤ) (size : ℕ) : addInt index size ≤ index + size := by
  rw [addInt]
  split_ifs
  · exact le_refl _
  · omega

def overlapError (reg it : PreparedRegister) : Raised :=
  ⟨"Register overlap of '{}' and '{}' @ index {} (+ {} > {})",
    [.key reg.key, .key it.key, .number reg.index, .number (reg.sizeOf / 2), .number it.index]⟩

/-- The checks of `prepareReadableSorted`. -/
def checkReadable (reg it : TypedRegister) : Except Raised Unit :=
  if it.1.index = reg.1.index then
    .error ⟨"Index collision for registers '{}' and '{}' @ index {}",
      [.key it.1.key, .key reg.1.key, .number it.1.index]⟩
  else if addInt reg.1.index (reg.1.sizeOf / 2) > it.1.index then .error (overlapError reg.1 it.1)
  else .ok ()

/-- An insertion keeps the order, strict or not, if the check leaves it to the element there. -/
theorem insertBy_pairwise {ρ : Type} {index : ρ → ℤ} {check : ρ → Except Raised Unit} {reg : ρ}
    {R : ℤ → ℤ → Prop} (hlt : ∀ i j, i < j → R i j) (htrans : ∀ i j k, R i j → R j k → R i k)
    (hcheck : ∀ it, check it = .ok () → index reg ≤ index it → R (index reg) (index it))
    {regs out : List ρ} (h : insertBy index check reg regs = .ok out)
    (hregs : regs.Pairwise (fun r r' => R (index r) (index r'))) :
    out.Pairwise (fun r r' => R (index r) (index r')) := by
  induction regs generalizing out with
  | nil =>
    cases h
    exact List.pairwise_singleton _ reg
  | cons it rest ih =>
    obtain ⟨hit, hrest⟩ := List.pairwise_cons.mp hregs
    rw [insertBy] at h
    split_ifs at h with hbefore
    · obtain ⟨inserted, hinserted, rfl⟩ := map_eq_ok.mp h
      refine List.pairwise_cons.mpr ⟨?_, ih hinserted hrest⟩
      intro r hr
      rcases List.mem_cons.mp ((insertBy_perm hinserted).subset hr) with rfl | hr
      · exact hlt _ _ hbefore
      · exact hit r hr
    · obtain ⟨⟨⟩, hchecked, rfl⟩ := map_eq_ok.mp h
      have hfirst := hcheck it hchecked (not_lt.mp hbefore)
      refine List.pairwise_cons.mpr ⟨?_, hregs⟩
      intro r hr
      rcases List.mem_cons.mp hr with rfl | hr
      · exact hfirst
      · exact htrans _ _ _ hfirst (hit r hr)

/-- The strict order is kept if the check refuses an equal index. -/
theorem insertBy_strict {ρ : Type} {index : ρ → ℤ} {check : ρ → Except Raised Unit} {reg : ρ}
    (hcheck : ∀ it, check it = .ok () → index it ≠ index reg) {regs out : List ρ}
    (h : insertBy index check reg regs = .ok out)
    (hregs : regs.Pairwise (fun r r' => index r < index r')) :
    out.Pairwise (fun r r' => index r < index r') := by
  refine insertBy_pairwise (fun _ _ hij => hij) (fun _ _ _ => lt_trans) ?_ h hregs
  intro it hchecked hle
  exact lt_of_le_of_ne hle (hcheck it hchecked).symm

/-- The order with equal indices is kept whatever the check refuses. -/
theorem insertBy_sorted {ρ : Type} {index : ρ → ℤ} {check : ρ → Except Raised Unit} {reg : ρ}
    {regs out : List ρ} (h : insertBy index check reg regs = .ok out)
    (hregs : regs.Pairwise (fun r r' => index r ≤ index r')) :
    out.Pairwise (fun r r' => index r ≤ index r') :=
  insertBy_pairwise (fun _ _ hij => le_of_lt hij) (fun _ _ _ => le_trans)
    (fun _ _ hle => hle) h hregs

/-- `prepareReadableSorted`. -/
def prepareReadableSorted (map : SingleTypeMap ValidRegister) (include_write_only : Bool) :
    Except Raised (List TypedRegister) :=
  (map.entries.filter (fun entry => entry.2.1.mode ≠ .write ∨ include_write_only)).foldlM
    (fun sorted entry =>
      let reg := prepared entry.1 entry.2
      insertBy (fun it => it.1.index) (checkReadable reg) reg sorted) []

/-- The sorted registers are those of the table, and have different keys. -/
theorem prepareReadableSorted_perm {map : SingleTypeMap ValidRegister} {include_write_only : Bool}
    {sorted : List TypedRegister} (h : prepareReadableSorted map include_write_only = .ok sorted) :
    sorted.Perm ((map.entries.filter
      (fun entry => entry.2.1.mode ≠ .write ∨ include_write_only)).map
        (fun entry => prepared entry.1 entry.2)) := by
  simpa using foldlM_insertBy_perm checkReadable h

/-- They are sorted by index. -/
theorem prepareReadableSorted_sorted {map : SingleTypeMap ValidRegister} {include_write_only : Bool}
    {sorted : List TypedRegister} (h : prepareReadableSorted map include_write_only = .ok sorted) :
    sorted.Pairwise (fun reg reg' => reg.1.index < reg'.1.index) := by
  suffices hloop : ∀ {entries : List (Bytes × ValidRegister)} {start out : List TypedRegister},
      start.Pairwise (fun reg reg' => reg.1.index < reg'.1.index) →
      entries.foldlM (fun sorted entry => insertBy (fun it : TypedRegister => it.1.index)
        (checkReadable (prepared entry.1 entry.2)) (prepared entry.1 entry.2) sorted) start =
          .ok out → out.Pairwise (fun reg reg' => reg.1.index < reg'.1.index) from
    hloop List.Pairwise.nil h
  intro entries start out hstart hout
  induction entries generalizing start with
  | nil =>
    cases hout
    exact hstart
  | cons entry rest ih =>
    rw [List.foldlM_cons] at hout
    obtain ⟨inserted, hinserted, hout⟩ := bind_eq_ok.mp hout
    refine ih (insertBy_strict ?_ hinserted hstart) hout
    intro it hchecked heq
    rw [checkReadable, if_pos heq] at hchecked
    cases hchecked

/-- The sorted registers have the keys of the entries of a table, which differ. -/
theorem prepareReadableSorted_keys {map : SingleTypeMap ValidRegister} {include_write_only : Bool}
    {sorted : List TypedRegister} (h : prepareReadableSorted map include_write_only = .ok sorted) :
    (sorted.map (fun reg => reg.1.key)).Nodup := by
  rw [((prepareReadableSorted_perm h).map _).nodup_iff, List.map_map]
  have hkeys : (map.entries.map Prod.fst).Nodup := by
    refine List.Pairwise.imp ?_ map.ascending
    intro a b hlt heq
    exact List.lt_irrefl a (heq ▸ hlt)
  exact hkeys.sublist (List.Sublist.map Prod.fst List.filter_sublist)

/-! ## Reads -/

/-- A read that is being merged: its registers, of which the last stands alone. -/
structure Merging where
  front : List TypedRegister
  back : TypedRegister
  unit : QModbusDataUnit

def Merging.toRead (merge : Merging) : MergedRead where
  regs := (merge.front ++ [merge.back]).map Subtype.val
  unit := merge.unit
  typed := by
    intro reg hreg
    obtain ⟨r, -, rfl⟩ := List.mem_map.mp hreg
    exact r.2

/-- `setAsFirst`. -/
def Merging.first (type : RegisterType) (reg : TypedRegister) : Merging where
  front := []
  back := reg
  unit :=
    { registerType := type, startAddress := reg.1.index, valueCount := reg.1.sizeOf / 2 % 2 ^ 16 }

def Merging.push (merge : Merging) (reg : TypedRegister) : Merging where
  front := merge.front ++ [merge.back]
  back := reg
  unit := { merge.unit with valueCount := merge.unit.valueCount + reg.1.sizeOf / 2 % 2 ^ 16 }

/-- The loop of `mergeSingle` from the second register on. A sum beyond the range of an `int` equals
no index behind that of the last register, wrapped or not. -/
def mergeFrom (type : RegisterType) (merge : Merging) : List TypedRegister → List MergedRead
  | [] => [merge.toRead]
  | reg :: rest =>
      if reg.1.index = merge.back.1.index + (merge.back.1.sizeOf / 2 : ℕ) then
        mergeFrom type (merge.push reg) rest
      else merge.toRead :: mergeFrom type (.first type reg) rest

/-- `mergeSingle`, for the sorted registers. -/
def mergeSingle (type : RegisterType) : List TypedRegister → List MergedRead
  | [] => []
  | reg :: rest => mergeFrom type (.first type reg) rest

/-- The reads have the registers they are merged from, in their order. -/
theorem mergeFrom_regs (type : RegisterType) (merge : Merging) (regs : List TypedRegister) :
    (mergeFrom type merge regs).flatMap MergedRead.regs =
      (merge.front ++ merge.back :: regs).map Subtype.val := by
  induction regs generalizing merge with
  | nil => simp [mergeFrom, Merging.toRead]
  | cons reg rest ih =>
    rw [mergeFrom]
    split_ifs
    · rw [ih]
      simp [Merging.push]
    · rw [List.flatMap_cons, ih]
      simp [Merging.toRead, Merging.first]

/-- The merged reads have all the registers, in their order. -/
theorem mergeSingle_regs (type : RegisterType) (sorted : List TypedRegister) :
    (mergeSingle type sorted).flatMap MergedRead.regs = sorted.map Subtype.val := by
  cases sorted with
  | nil => rfl
  | cons reg rest =>
    rw [mergeSingle, mergeFrom_regs]
    rfl

/-- `prepareReads`. -/
def prepareReads (map : RegistersMap ValidRegister) : Except Raised (List MergedRead) := do
  let holding ← prepareReadableSorted map.holding false
  let di ← prepareReadableSorted map.di false
  let input ← prepareReadableSorted map.input false
  let coils ← prepareReadableSorted map.coils false
  return mergeSingle .HoldingRegisters holding ++ mergeSingle .DiscreteInputs di ++
    mergeSingle .InputRegisters input ++ mergeSingle .Coils coils

/-- The loop of `prepareSingleManual` over the sorted registers. -/
def coveredBy (q : ManualQuery) : List TypedRegister → Except Raised (List TypedRegister)
  | [] => .ok []
  | r :: rest =>
      let low := asInt q.index.toNat
      let high := asInt (q.index + q.count).toNat
      let regEnd := addInt r.1.index r.1.sizeOf
      if low ≤ r.1.index ∧ r.1.index < high then
        if regEnd > high then
          .error
            ⟨"Register {}: Manual query ({} {}-{}) would split register (it is in range of {}-{})",
              [.key r.1.key, .name q.type.name, .number q.index.toNat,
                .number (q.index + q.count).toNat, .number r.1.index, .number regEnd]⟩
        else (coveredBy q rest).map (r :: ·)
      else if high ≤ r.1.index then .ok []
      else coveredBy q rest

/-- A query covers some of the registers, in their order. -/
theorem coveredBy_sublist {q : ManualQuery} {regs covered : List TypedRegister}
    (h : coveredBy q regs = .ok covered) : covered.Sublist regs := by
  induction regs generalizing covered with
  | nil =>
    cases h
    exact List.Sublist.refl _
  | cons r rest ih =>
    simp only [coveredBy] at h
    split_ifs at h
    · obtain ⟨later, hlater, rfl⟩ := map_eq_ok.mp h
      exact (ih hlater).cons_cons r
    · cases h
      exact List.nil_sublist _
    · exact (ih h).cons r

/-- `prepareSingleManual`. -/
def prepareSingleManual (q : ManualQuery) (regs : List TypedRegister) (type : RegisterType) :
    Except Raised MergedRead :=
  (coveredBy q regs).map (fun covered =>
    { regs := covered.map Subtype.val
      unit :=
        { registerType := type, startAddress := asInt q.index.toNat, valueCount := q.count.toNat }
      typed := by
        intro reg hreg
        obtain ⟨r, -, rfl⟩ := List.mem_map.mp hreg
        exact r.2 })

/-- `prepareManualReads`. -/
def prepareManualReads (map : RegistersMap ValidRegister) (qs : List ManualQuery) :
    Except Raised (List MergedRead) := do
  let holdings ← prepareReadableSorted map.holding false
  let coils ← prepareReadableSorted map.coils false
  let di ← prepareReadableSorted map.di false
  let inputs ← prepareReadableSorted map.input false
  qs.mapM (fun q =>
    match q.type with
    | .holding => prepareSingleManual q holdings .HoldingRegisters
    | .coil => prepareSingleManual q coils .Coils
    | .di => prepareSingleManual q di .DiscreteInputs
    | .input => prepareSingleManual q inputs .InputRegisters)

/-- No two registers of the read have one key. -/
def MergedRead.Distinct (read : MergedRead) : Prop :=
  (read.regs.map PreparedRegister.key).Nodup

instance (read : MergedRead) : Decidable read.Distinct :=
  inferInstanceAs (Decidable (List.Nodup _))

/-- A merged read has different keys where the table has. -/
theorem distinct_of_mergeSingle {type : RegisterType} {sorted : List TypedRegister}
    (hkeys : (sorted.map (fun reg => reg.1.key)).Nodup) {read : MergedRead}
    (hread : read ∈ mergeSingle type sorted) : read.Distinct := by
  have hregs : read.regs.Sublist (sorted.map Subtype.val) := by
    rw [← mergeSingle_regs type, List.flatMap_def]
    exact List.sublist_flatten_of_mem (List.mem_map_of_mem hread)
  apply List.Nodup.sublist (hregs.map PreparedRegister.key)
  rwa [List.map_map]

/-- So has the read of a query. -/
theorem distinct_of_prepareSingleManual {q : ManualQuery} {sorted : List TypedRegister}
    (hkeys : (sorted.map (fun reg => reg.1.key)).Nodup) {type : RegisterType} {read : MergedRead}
    (h : prepareSingleManual q sorted type = .ok read) : read.Distinct := by
  obtain ⟨covered, hcovered, rfl⟩ := map_eq_ok.mp h
  have hsublist := (coveredBy_sublist hcovered).map (fun reg => reg.1.key)
  rw [MergedRead.Distinct, List.map_map]
  exact hkeys.sublist hsublist

/-- The reads that a map is merged to have different keys each. -/
theorem distinct_of_prepareReads {map : RegistersMap ValidRegister} {reads : List MergedRead}
    (h : prepareReads map = .ok reads) : ∀ read ∈ reads, read.Distinct := by
  obtain ⟨holding, hholding, h⟩ := bind_eq_ok.mp h
  obtain ⟨di, hdi, h⟩ := bind_eq_ok.mp h
  obtain ⟨input, hinput, h⟩ := bind_eq_ok.mp h
  obtain ⟨coils, hcoils, h⟩ := bind_eq_ok.mp h
  cases h
  intro read hread
  simp only [List.mem_append] at hread
  rcases hread with ((hread | hread) | hread) | hread
  · exact distinct_of_mergeSingle (prepareReadableSorted_keys hholding) hread
  · exact distinct_of_mergeSingle (prepareReadableSorted_keys hdi) hread
  · exact distinct_of_mergeSingle (prepareReadableSorted_keys hinput) hread
  · exact distinct_of_mergeSingle (prepareReadableSorted_keys hcoils) hread

/-- So have the reads that the queries name. -/
theorem distinct_of_prepareManualReads {map : RegistersMap ValidRegister} {qs : List ManualQuery}
    {reads : List MergedRead} (h : prepareManualReads map qs = .ok reads) :
    ∀ read ∈ reads, read.Distinct := by
  obtain ⟨holdings, hholdings, h⟩ := bind_eq_ok.mp h
  obtain ⟨coils, hcoils, h⟩ := bind_eq_ok.mp h
  obtain ⟨di, hdi, h⟩ := bind_eq_ok.mp h
  obtain ⟨inputs, hinputs, h⟩ := bind_eq_ok.mp h
  intro read hread
  obtain ⟨q, -, hq⟩ := exists_of_mem_mapM h hread
  cases htype : q.type with
  | holding =>
    rw [htype] at hq
    exact distinct_of_prepareSingleManual (prepareReadableSorted_keys hholdings) hq
  | coil =>
    rw [htype] at hq
    exact distinct_of_prepareSingleManual (prepareReadableSorted_keys hcoils) hq
  | di =>
    rw [htype] at hq
    exact distinct_of_prepareSingleManual (prepareReadableSorted_keys hdi) hq
  | input =>
    rw [htype] at hq
    exact distinct_of_prepareSingleManual (prepareReadableSorted_keys hinputs) hq

/-! ## Writes -/

def preparedWrite (type : RegisterType) (key : Bytes) (reg : ValidRegister) :
    PreparedWriteRegister :=
  { (prepared key reg).1 with
    writeOnly := reg.1.mode = .write
    mbType := type
    typed := reg.2 }

/-- The check of `prepareWrites`. -/
def checkWrite (reg it : PreparedWriteRegister) : Except Raised Unit :=
  if addInt reg.index (reg.sizeOf / 2) > it.index then
    .error (overlapError reg.toPreparedRegister it.toPreparedRegister)
  else .ok ()

/-- The registers that `prepareWrites` adds for one table. -/
def addWrites (map : SingleTypeMap ValidRegister) (type : RegisterType) (include_read_only : Bool) :
    Except Raised (List PreparedWriteRegister) :=
  (map.entries.filter (fun entry => entry.2.1.mode ≠ .read ∨ include_read_only)).foldlM
    (fun regs entry =>
      let reg := preparedWrite type entry.1 entry.2
      insertBy (fun it => it.index) (checkWrite reg) reg regs) []

/-- `prepareWrites`: a key of a later table replaces that of an earlier one. -/
def prepareWrites (map : RegistersMap ValidRegister) (include_read_only : Bool) :
    Except Raised (Bytes → Option PreparedWriteRegister) := do
  let coils ← addWrites map.coils .Coils include_read_only
  let di ← addWrites map.di .DiscreteInputs include_read_only
  let holding ← addWrites map.holding .HoldingRegisters include_read_only
  let input ← addWrites map.input .InputRegisters include_read_only
  return (coils ++ di ++ holding ++ input).foldl
    (fun result reg => Function.update result reg.key (some reg)) (fun _ => none)

/-- What a map holds after entries were set is one of them, or was there before. -/
private theorem eq_some_of_foldl_update {regs : List PreparedWriteRegister}
    {start : Bytes → Option PreparedWriteRegister} {k : Bytes} {reg : PreparedWriteRegister}
    (h : regs.foldl (fun (result : Bytes → Option PreparedWriteRegister) reg =>
      Function.update result reg.key (some reg)) start k = some reg) :
    start k = some reg ∨ reg ∈ regs ∧ reg.key = k := by
  induction regs generalizing start with
  | nil => exact Or.inl h
  | cons first rest ih =>
    rw [List.foldl_cons] at h
    rcases ih h with hstart | ⟨hmem, hkey⟩
    · by_cases hk : k = first.key
      · rw [hk, Function.update_self] at hstart
        obtain rfl := Option.some.inj hstart
        exact Or.inr ⟨List.mem_cons_self, hk.symm⟩
      · rw [Function.update_of_ne hk] at hstart
        exact Or.inl hstart
    · exact Or.inr ⟨List.mem_cons_of_mem first hmem, hkey⟩

/-- The table of a register type. -/
def RegistersMap.table {ρ : Type} (map : RegistersMap ρ) : RegisterType → SingleTypeMap ρ
  | .Invalid => ⟨[], List.Pairwise.nil⟩
  | .DiscreteInputs => map.di
  | .Coils => map.coils
  | .InputRegisters => map.input
  | .HoldingRegisters => map.holding

/-- A register that can be written is an entry of its table whose mode allows it, or all modes are
included. -/
theorem mem_of_addWrites {map : SingleTypeMap ValidRegister} {type : RegisterType}
    {include_read_only : Bool} {regs : List PreparedWriteRegister}
    (h : addWrites map type include_read_only = .ok regs) {reg : PreparedWriteRegister}
    (hreg : reg ∈ regs) :
    ∃ entry ∈ map.entries, reg = preparedWrite type entry.1 entry.2 ∧
      (entry.2.1.mode ≠ .read ∨ include_read_only = true) := by
  have hmem := (foldlM_insertBy_perm checkWrite h).subset hreg
  rw [List.append_nil] at hmem
  obtain ⟨entry, hentry, rfl⟩ := List.mem_map.mp hmem
  obtain ⟨hentry, hmode⟩ := List.mem_filter.mp hentry
  exact ⟨entry, hentry, rfl, of_decide_eq_true hmode⟩

/-- A register that is found under a key has the key, and comes from the table of its type, where
it is not read-only unless such registers are included. -/
theorem mem_of_prepareWrites {map : RegistersMap ValidRegister} {include_read_only : Bool}
    {result : Bytes → Option PreparedWriteRegister}
    (h : prepareWrites map include_read_only = .ok result) {k : Bytes}
    {reg : PreparedWriteRegister} (hk : result k = some reg) :
    reg.key = k ∧ ∃ entry ∈ (map.table reg.mbType).entries,
      reg = preparedWrite reg.mbType entry.1 entry.2 ∧
        (entry.2.1.mode ≠ .read ∨ include_read_only = true) := by
  obtain ⟨coils, hcoils, h⟩ := bind_eq_ok.mp h
  obtain ⟨di, hdi, h⟩ := bind_eq_ok.mp h
  obtain ⟨holding, hholding, h⟩ := bind_eq_ok.mp h
  obtain ⟨input, hinput, h⟩ := bind_eq_ok.mp h
  cases h
  obtain hnone | ⟨hmem, hkey⟩ := eq_some_of_foldl_update hk
  · cases hnone
  refine ⟨hkey, ?_⟩
  simp only [List.mem_append] at hmem
  rcases hmem with ((hmem | hmem) | hmem) | hmem
  · obtain ⟨entry, hentry, rfl, hmode⟩ := mem_of_addWrites hcoils hmem
    exact ⟨entry, hentry, rfl, hmode⟩
  · obtain ⟨entry, hentry, rfl, hmode⟩ := mem_of_addWrites hdi hmem
    exact ⟨entry, hentry, rfl, hmode⟩
  · obtain ⟨entry, hentry, rfl, hmode⟩ := mem_of_addWrites hholding hmem
    exact ⟨entry, hentry, rfl, hmode⟩
  · obtain ⟨entry, hentry, rfl, hmode⟩ := mem_of_addWrites hinput hmem
    exact ⟨entry, hentry, rfl, hmode⟩

/-- The part of the constructor that prepares the registers. -/
def prepareMaster (config : MasterConfig) :
    Except Raised (List MergedRead × (Bytes → Option PreparedWriteRegister)) := do
  let registers ← validateRegisters config.registers
  let reads ←
    match config.queries with
    | some queries => prepareManualReads registers queries
    | none => prepareReads registers
  let writable ← prepareWrites registers false
  return (reads, writable)

/-- In every read of a master the registers have different keys. -/
theorem distinct_of_prepareMaster {config : MasterConfig} {reads : List MergedRead}
    {writable : Bytes → Option PreparedWriteRegister}
    (h : prepareMaster config = .ok (reads, writable)) : ∀ read ∈ reads, read.Distinct := by
  obtain ⟨registers, -, h⟩ := bind_eq_ok.mp h
  cases hqueries : config.queries with
  | none =>
    rw [hqueries] at h
    obtain ⟨prepared, hreads, h⟩ := bind_eq_ok.mp h
    obtain ⟨writes, -, h⟩ := bind_eq_ok.mp h
    cases h
    exact distinct_of_prepareReads hreads
  | some queries =>
    rw [hqueries] at h
    obtain ⟨prepared, hreads, h⟩ := bind_eq_ok.mp h
    obtain ⟨writes, -, h⟩ := bind_eq_ok.mp h
    cases h
    exact distinct_of_prepareManualReads hreads

end Radapter.Modbus
