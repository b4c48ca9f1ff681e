import Radapter.Modbus.Overlaps

/-!
# Merged reads

`mergeSingle` merges the sorted registers of a table into one read for each of their runs. A read
asks for the words of its registers and for no others, so its size is the length of the run. Nothing
bounds it, and nothing bounds the indices: a table whose registers fill more words in a row than one
request may ask for is merged into a read that no device answers.
-/

namespace Radapter.Modbus

open Library Library.Extent

/-! ## One read for each run -/

/-- The registers of a run have types. -/
theorem typed_of_mem_run (run : List TypedRegister) :
    ∀ reg ∈ run.map Subtype.val, reg.type ≠ .defaultValueType := by
  intro reg hreg
  obtain ⟨r, -, rfl⟩ := List.mem_map.mp hreg
  exact r.2

/-- The read of a run. -/
def runRead (type : RegisterType) (run : List TypedRegister) : MergedRead where
  regs := run.map Subtype.val
  unit :=
    { registerType := type
      startAddress := (run.head?.map (fun reg => reg.1.index)).getD (-1)
      valueCount := total run }
  typed := typed_of_mem_run run

/-- The words of a register fit in 16 bits. -/
private theorem words_mod (reg : PreparedRegister) :
    reg.sizeOf / 2 % 2 ^ 16 = reg.sizeOf / 2 := by
  rw [reg.sized]
  cases reg.type with
  | defaultValueType => rfl
  | uint16 => rfl
  | uint32 => rfl
  | float32 => rfl
  | bit => rfl

/-- A merge that has the registers of a run has the unit of its read. -/
structure Merging.Running (type : RegisterType) (merge : Merging) : Prop where
  unit_eq : merge.unit = (runRead type (merge.front ++ [merge.back])).unit
  chain : (merge.front ++ [merge.back]).IsChain (fun r s => touches r s = true)

/-- The first register alone is a run. -/
theorem Merging.running_first (type : RegisterType) (reg : TypedRegister) :
    (Merging.first type reg).Running type := by
  constructor
  · simp only [Merging.first, runRead, words_mod]
    rfl
  · exact List.isChain_singleton reg

/-- A register that touches the last one makes the run longer. -/
theorem Merging.Running.push {type : RegisterType} {merge : Merging} (h : merge.Running type)
    {reg : TypedRegister} (htouch : touches merge.back reg = true) :
    (merge.push reg).Running type := by
  constructor
  · have hcount : total ((merge.front ++ [merge.back]) ++ [reg]) =
        total (merge.front ++ [merge.back]) + reg.1.sizeOf / 2 := total_append _ _
    simp only [Merging.push, h.unit_eq, runRead, words_mod, hcount, List.head?_append]
    cases merge.front with
    | nil => rfl
    | cons first rest => rfl
  · refine List.isChain_append.mpr ⟨h.chain, List.isChain_singleton reg, ?_⟩
    simpa [Merging.push] using htouch

/-- A merge that is over is the read of its run. -/
theorem Merging.Running.toRead_eq {type : RegisterType} {merge : Merging}
    (h : merge.Running type) : merge.toRead = runRead type (merge.front ++ [merge.back]) := by
  simp only [Merging.toRead, h.unit_eq]
  rfl

/-- The loop finishes the run that is being merged and goes on with the next one. -/
theorem mergeFrom_eq {type : RegisterType} {merge : Merging} (h : merge.Running type)
    (regs : List TypedRegister) : mergeFrom type merge regs =
      ((merge.front ++ merge.back :: regs).splitBy touches).map (runRead type) := by
  induction regs generalizing merge with
  | nil =>
    rw [mergeFrom, h.toRead_eq,
      List.splitBy_of_isChain (List.append_ne_nil_of_right_ne_nil _ (List.cons_ne_nil _ _)) h.chain]
    rfl
  | cons reg rest ih =>
    rw [mergeFrom, List.append_cons]
    split_ifs with htouch
    · have hnext := ih (h.push (touches_iff.mpr htouch))
      exact hnext
    · have hgap : ∀ r ∈ (merge.front ++ [merge.back]).getLast?, touches r reg = false := by
        intro r hr
        rw [List.getLast?_concat, Option.mem_some_iff] at hr
        rw [← hr, ← Bool.not_eq_true, touches_iff]
        exact htouch
      rw [List.splitBy_append_cons _ hgap, List.splitBy_of_isChain
        (List.append_ne_nil_of_right_ne_nil _ (List.cons_ne_nil _ _)) h.chain, List.map_append,
        h.toRead_eq, ih (Merging.running_first type reg)]
      rfl

/-- `mergeSingle` makes one read of each run of the sorted registers. -/
theorem mergeSingle_eq (type : RegisterType) (sorted : List TypedRegister) :
    mergeSingle type sorted = (sorted.splitBy touches).map (runRead type) := by
  cases sorted with
  | nil => rfl
  | cons reg rest => exact mergeFrom_eq (Merging.running_first type reg) rest

/-! ## What a read asks for -/

/-- The read asks for the words of its registers, one register after the other, and no others. -/
structure MergedRead.Exact (type : RegisterType) (read : MergedRead) : Prop where
  type_eq : read.unit.registerType = type
  start_eq : read.regs.head?.map PreparedRegister.index = some read.unit.startAddress
  count_eq : read.unit.valueCount = (read.regs.map (fun reg => reg.sizeOf / 2)).sum
  contiguous : read.regs.IsChain (fun reg next : PreparedRegister =>
    next.index = reg.index + (reg.sizeOf / 2 : ℕ))

/-- The read of a run whose registers touch asks for their words one after the other. -/
theorem exact_runRead (type : RegisterType) {run : List TypedRegister} (hne : run ≠ [])
    (hrun : run.IsChain (fun r s => touches r s = true)) : (runRead type run).Exact type := by
  cases run with
  | nil => exact absurd rfl hne
  | cons first rest =>
    refine ⟨rfl, rfl, ?_, ?_⟩
    · rw [runRead, List.map_map]
      rfl
    · rw [runRead, List.isChain_map]
      exact hrun.imp fun r s h => touches_iff.mp h

/-- Every merged read is exact. -/
theorem exact_of_mergeSingle {type : RegisterType} {sorted : List TypedRegister} {read : MergedRead}
    (hread : read ∈ mergeSingle type sorted) : read.Exact type := by
  rw [mergeSingle_eq] at hread
  obtain ⟨run, hrun, rfl⟩ := List.mem_map.mp hread
  exact exact_runRead type (List.ne_nil_of_mem_splitBy hrun) (List.isChain_of_mem_splitBy hrun)

/-- The last register of a run stops where its read does. -/
theorem stop_runRead (type : RegisterType) {run : List TypedRegister} (hne : run ≠ [])
    (hrun : run.IsChain (fun r s => touches r s = true)) :
    stop (run.getLast hne) =
      (runRead type run).unit.startAddress + (runRead type run).unit.valueCount := by
  cases run with
  | nil => exact absurd rfl hne
  | cons first rest => exact stop_chain hrun

/-- A read starts at its first register. -/
theorem start_runRead (type : RegisterType) {run : List TypedRegister} (hne : run ≠ []) :
    start (run.head hne) = (runRead type run).unit.startAddress := by
  cases run with
  | nil => exact absurd rfl hne
  | cons first rest => rfl

/-- A read stops before the next one starts. -/
theorem gap_mergeSingle (type : RegisterType) {sorted : List TypedRegister}
    (hsorted : sorted.Pairwise Before) :
    (mergeSingle type sorted).IsChain (fun read next : MergedRead =>
      read.unit.startAddress + read.unit.valueCount < next.unit.startAddress) := by
  rw [mergeSingle_eq, List.isChain_map]
  refine (gap_splitBy hsorted).imp_of_mem_imp ?_
  rintro run next hrun hnext ⟨hne, hne', hlt⟩
  rwa [stop_runRead type hne (List.isChain_of_mem_splitBy hrun), start_runRead type hne'] at hlt

/-- The readable registers of an accepted table, if they are apart, stand one behind the other. -/
theorem before_sorted {map : SingleTypeMap ValidRegister} {include_write_only : Bool}
    {sorted : List TypedRegister} (h : prepareReadableSorted map include_write_only = .ok sorted)
    (hapart : (readableOf map include_write_only).Pairwise Apart) : sorted.Pairwise Before :=
  before_of_apart (prepareReadableSorted_sorted h)
    ((apart_perm (prepareReadableSorted_perm h)).mpr hapart)

/-- A table whose readable registers are apart is merged into reads that have its registers in the
order of their indices. Each asks for its registers, and no read touches the next one. -/
theorem reads_of_apart {map : SingleTypeMap ValidRegister} (type : RegisterType)
    (hapart : (readableOf map false).Pairwise Apart) :
    ∃ sorted, prepareReadableSorted map false = .ok sorted ∧
      (mergeSingle type sorted).flatMap MergedRead.regs = sorted.map Subtype.val ∧
      sorted.Perm (readableOf map false) ∧
      sorted.Pairwise (fun reg reg' => reg.1.index < reg'.1.index) ∧
      (∀ read ∈ mergeSingle type sorted, read.Exact type) ∧
      (mergeSingle type sorted).IsChain (fun read next : MergedRead =>
        read.unit.startAddress + read.unit.valueCount < next.unit.startAddress) := by
  obtain ⟨sorted, hsorted⟩ := (prepareReadableSorted_ok_iff map false).mpr
    (((apart_iff_none (readableOf map false)).mp hapart).1.seen true)
  exact ⟨sorted, hsorted, mergeSingle_regs type sorted, prepareReadableSorted_perm hsorted,
    prepareReadableSorted_sorted hsorted, fun read hread => exact_of_mergeSingle hread,
    gap_mergeSingle type (before_sorted hsorted hapart)⟩

/-- Two words at 0, and one behind a gap. -/
theorem reads_of_apart_two :
    ∃ sorted, prepareReadableSorted
        (twoRegisters { index := 5 } { index := 0, type := .float32 }) false = .ok sorted ∧
      (mergeSingle .HoldingRegisters sorted).flatMap MergedRead.regs = sorted.map Subtype.val ∧
      sorted.Perm
        (readableOf (twoRegisters { index := 5 } { index := 0, type := .float32 }) false) ∧
      sorted.Pairwise (fun reg reg' => reg.1.index < reg'.1.index) ∧
      (∀ read ∈ mergeSingle .HoldingRegisters sorted, read.Exact .HoldingRegisters) ∧
      (mergeSingle .HoldingRegisters sorted).IsChain (fun read next : MergedRead =>
        read.unit.startAddress + read.unit.valueCount < next.unit.startAddress) :=
  reads_of_apart .HoldingRegisters (by decide)

/-! ## Requests that a device can answer -/

/-- The most values that one request of the protocol may read. -/
def requestLimit : RegisterType → ℕ
  | .Invalid => 0
  | .DiscreteInputs => 2000
  | .Coils => 2000
  | .InputRegisters => 125
  | .HoldingRegisters => 125

/-- A request of the protocol: it reads something, not too much, and only addresses that exist. -/
structure QModbusDataUnit.Legal (unit : QModbusDataUnit) : Prop where
  some_value : 1 ≤ unit.valueCount
  not_too_many : unit.valueCount ≤ requestLimit unit.registerType
  from_first : 0 ≤ unit.startAddress
  up_to_last : unit.startAddress + unit.valueCount ≤ 65536

/-- The registers have addresses that exist, and leave one free among any that are one more than a
request may read. -/
structure Fits (type : RegisterType) (regs : List TypedRegister) : Prop where
  inside : ∀ reg ∈ regs, 0 ≤ start reg ∧ stop reg ≤ 65536
  free : ∀ a : ℤ, ∃ i : ℕ, i ≤ requestLimit type ∧ ¬ Taken regs (a + i)

/-- Which addresses are taken does not depend on the order. -/
theorem taken_perm {l m : List TypedRegister} (h : l.Perm m) (a : ℤ) : Taken l a ↔ Taken m a := by
  simp only [Taken, h.mem_iff]

/-- Nor does whether registers fit. -/
theorem Fits.perm {type : RegisterType} {l m : List TypedRegister} (h : Fits type l)
    (hperm : l.Perm m) : Fits type m := by
  constructor
  · exact fun reg hreg => h.inside reg (hperm.mem_iff.mpr hreg)
  · simpa only [taken_perm hperm] using h.free

/-- The reads of registers that fit are legal. -/
theorem legal_of_fits {type : RegisterType} {sorted : List TypedRegister} (h : Fits type sorted)
    {read : MergedRead} (hread : read ∈ mergeSingle type sorted) : read.unit.Legal := by
  rw [mergeSingle_eq] at hread
  obtain ⟨run, hmem, rfl⟩ := List.mem_map.mp hread
  have hrun := List.isChain_of_mem_splitBy hmem
  have hne := List.ne_nil_of_mem_splitBy hmem
  have hsub : ∀ reg ∈ run, reg ∈ sorted := by
    intro reg hreg
    rw [← List.flatten_splitBy touches sorted]
    exact List.mem_flatten_of_mem hmem hreg
  cases run with
  | nil => exact absurd rfl hne
  | cons first rest =>
    have hfirst := h.inside first (hsub first List.mem_cons_self)
    have hlast := h.inside _ (hsub _ (List.getLast_mem hne))
    have hstop := stop_runRead type hne hrun
    have hpos : 1 ≤ total (first :: rest) := by
      have hsize := size_pos first
      rw [total_cons]
      omega
    refine ⟨hpos, ?_, hfirst.1, hstop ▸ hlast.2⟩
    by_contra hlong
    have hlimit : requestLimit type < total (first :: rest) := not_le.mp hlong
    obtain ⟨i, hi, hfree⟩ := h.free (start first)
    obtain ⟨reg, hreg, htakes⟩ := (taken_chain hrun (start first + i)).mpr ⟨by omega, by omega⟩
    exact hfree ⟨reg, hsub reg hreg, htakes⟩

/-- Registers that stand one behind the other fit if their reads are legal. -/
theorem fits_of_legal {type : RegisterType} {sorted : List TypedRegister}
    (hsorted : sorted.Pairwise Before)
    (h : ∀ read ∈ mergeSingle type sorted, read.unit.Legal) : Fits type sorted := by
  have hlegal : ∀ run ∈ sorted.splitBy touches, (runRead type run).unit.Legal := by
    intro run hrun
    apply h
    rw [mergeSingle_eq]
    exact List.mem_map_of_mem hrun
  constructor
  · intro reg hreg
    rw [← List.flatten_splitBy touches sorted] at hreg
    obtain ⟨run, hmem, hreg⟩ := List.mem_flatten.mp hreg
    have hrun := List.isChain_of_mem_splitBy hmem
    have hne := List.ne_nil_of_mem_splitBy hmem
    have hbounds := bounds_of_mem_chain hrun hne hreg
    rw [start_runRead type hne, stop_runRead type hne hrun] at hbounds
    have hfirst := (hlegal run hmem).from_first
    have hlast := (hlegal run hmem).up_to_last
    omega
  · intro a
    by_contra hall
    have htaken : ∀ i : ℕ, i ≤ requestLimit type → Taken sorted (a + i) := by
      intro i hi
      by_contra hfree
      exact hall ⟨i, hi, hfree⟩
    obtain ⟨run, hmem, ha⟩ := taken_splitBy (htaken 0 (Nat.zero_le _))
    have hrun := List.isChain_of_mem_splitBy hmem
    have hne := List.ne_nil_of_mem_splitBy hmem
    have hshort : (runRead type run).unit.valueCount ≤ requestLimit type :=
      (hlegal run hmem).not_too_many
    have hfree := free_stop hsorted hmem hne
    have hstop := stop_runRead type hne hrun
    obtain ⟨reg, hreg, hstart, hlt⟩ := ha
    have hbounds := bounds_of_mem_chain hrun hne hreg
    rw [start_runRead type hne] at hbounds
    -- the address behind the run is no further than one request reads
    obtain ⟨i, hi⟩ := Int.eq_ofNat_of_zero_le (a := stop (run.getLast hne) - a) (by omega)
    apply hfree
    have hsome := htaken i (by omega)
    rwa [show a + (i : ℤ) = stop (run.getLast hne) by omega] at hsome

/-- The reads of a master come from the four tables. -/
theorem mem_prepareReads {map : RegistersMap ValidRegister} {reads : List MergedRead}
    (h : prepareReads map = .ok reads) {read : MergedRead} : read ∈ reads ↔
      ∃ type sorted, prepareReadableSorted (map.table type) false = .ok sorted ∧
        read ∈ mergeSingle type sorted := by
  obtain ⟨holding, hholding, h⟩ := bind_eq_ok.mp h
  obtain ⟨di, hdi, h⟩ := bind_eq_ok.mp h
  obtain ⟨input, hinput, h⟩ := bind_eq_ok.mp h
  obtain ⟨coils, hcoils, h⟩ := bind_eq_ok.mp h
  cases h
  simp only [List.mem_append]
  constructor
  · rintro (((hread | hread) | hread) | hread)
    · exact ⟨.HoldingRegisters, holding, hholding, hread⟩
    · exact ⟨.DiscreteInputs, di, hdi, hread⟩
    · exact ⟨.InputRegisters, input, hinput, hread⟩
    · exact ⟨.Coils, coils, hcoils, hread⟩
  · rintro ⟨type, sorted, hsorted, hread⟩
    have hsame : ∀ {other : List TypedRegister},
        prepareReadableSorted (map.table type) false = .ok other → other = sorted :=
      fun hother => Except.ok.inj (hother.symm.trans hsorted)
    cases type with
    | Invalid =>
      cases hsorted
      cases hread
    | DiscreteInputs => exact Or.inl (Or.inl (Or.inr (hsame hdi ▸ hread)))
    | Coils => exact Or.inr (hsame hcoils ▸ hread)
    | InputRegisters => exact Or.inl (Or.inr (hsame hinput ▸ hread))
    | HoldingRegisters => exact Or.inl (Or.inl (Or.inl (hsame hholding ▸ hread)))

/-- A configuration without queries has its reads prepared automatically. -/
theorem prepareReads_of_prepareMaster {config : MasterConfig}
    {registers : RegistersMap ValidRegister} {reads : List MergedRead}
    {writable : Bytes → Option PreparedWriteRegister}
    (hprepared : prepareMaster config = .ok (reads, writable)) (hqueries : config.queries = none)
    (hvalid : validateRegisters config.registers = .ok registers) :
    prepareReads registers = .ok reads := by
  obtain ⟨registers', hvalid', h⟩ := bind_eq_ok.mp hprepared
  obtain rfl := Except.ok.inj (hvalid'.symm.trans hvalid)
  rw [hqueries] at h
  obtain ⟨reads', hreads, h⟩ := bind_eq_ok.mp h
  obtain ⟨writable', -, h⟩ := bind_eq_ok.mp h
  cases h
  exact hreads

/-- Tables whose registers are apart fit if the reads are legal. -/
theorem fits_of_prepareReads {registers : RegistersMap ValidRegister} {reads : List MergedRead}
    (hreads : prepareReads registers = .ok reads) (hlegal : ∀ read ∈ reads, read.unit.Legal)
    {type : RegisterType} (hapart : (readableOf (registers.table type) false).Pairwise Apart) :
    Fits type (readableOf (registers.table type) false) := by
  obtain ⟨sorted, hsorted⟩ := (prepareReadableSorted_ok_iff (registers.table type) false).mpr
    (((apart_iff_none _).mp hapart).1.seen true)
  have hfits : Fits type sorted := by
    apply fits_of_legal (before_sorted hsorted hapart)
    intro read hread
    exact hlegal read ((mem_prepareReads hreads).mpr ⟨type, sorted, hsorted, hread⟩)
  exact hfits.perm (prepareReadableSorted_perm hsorted)

/-- The automatic reads of a master are legal if the readable registers of every table fit; and if
the registers of each table are apart, they are legal only then. -/
theorem legal_of_prepareMaster {config : MasterConfig} {registers : RegistersMap ValidRegister}
    {reads : List MergedRead} {writable : Bytes → Option PreparedWriteRegister}
    (hprepared : prepareMaster config = .ok (reads, writable)) (hqueries : config.queries = none)
    (hvalid : validateRegisters config.registers = .ok registers) :
    ((∀ type, Fits type (readableOf (registers.table type) false)) →
        ∀ read ∈ reads, read.unit.Legal) ∧
      ((∀ type, (readableOf (registers.table type) false).Pairwise Apart) →
        (∀ read ∈ reads, read.unit.Legal) →
          ∀ type, Fits type (readableOf (registers.table type) false)) := by
  have hreads := prepareReads_of_prepareMaster hprepared hqueries hvalid
  constructor
  · intro hfits read hread
    obtain ⟨type, sorted, hsorted, hread⟩ := (mem_prepareReads hreads).mp hread
    exact legal_of_fits ((hfits type).perm (prepareReadableSorted_perm hsorted).symm) hread
  · intro hapart hlegal type
    exact fits_of_prepareReads hreads hlegal (hapart type)

/-- A table without registers fits. -/
theorem fits_nil (type : RegisterType) : Fits type [] := by
  constructor
  · intro reg hreg
    cases hreg
  · intro a
    refine ⟨0, Nat.zero_le _, ?_⟩
    rintro ⟨reg, hreg, -⟩
    cases hreg

/-- It is in order, too. -/
theorem ascending_nil {ρ : Type} :
    (([] : List (Bytes × ρ)).map Prod.fst).Pairwise (· < ·) := List.Pairwise.nil

/-- A configuration that has holding registers only. -/
def holdingConfig (holding : SingleTypeMap Register) : MasterConfig where
  registers :=
    { di := ⟨[], ascending_nil⟩, holding := holding, input := ⟨[], ascending_nil⟩
      coils := ⟨[], ascending_nil⟩ }
  queries := none

/-- The registers of such a configuration after the checks. -/
def holdingRegisters (holding : SingleTypeMap Register) : RegistersMap ValidRegister where
  di := ⟨[], ascending_nil⟩
  holding := holding.update Register.asWords
  input := ⟨[], ascending_nil⟩
  coils := ⟨[], ascending_nil⟩

/-- A configuration of holding registers passes the checks of the other tables. -/
theorem validate_holdingConfig (holding : SingleTypeMap Register) :
    validateRegisters (holdingConfig holding).registers = .ok (holdingRegisters holding) := rfl

/-- A master without queries is made if no register of a table starts in one with a later name. -/
theorem exists_prepareMaster {config : MasterConfig} {registers : RegistersMap ValidRegister}
    (hqueries : config.queries = none) (hvalid : validateRegisters config.registers = .ok registers)
    (hreadable : ∀ type, NoneInLater (readableOf (registers.table type) false))
    (hwritable : ∀ type, NoneInLater (writableOf (registers.table type) type false)) :
    ∃ reads writable, prepareMaster config = .ok (reads, writable) := by
  have hsorted : ∀ type, ∃ sorted,
      prepareReadableSorted (registers.table type) false = .ok sorted :=
    fun type => (prepareReadableSorted_ok_iff _ false).mpr ((hreadable type).seen true)
  obtain ⟨holding, hholding⟩ := hsorted .HoldingRegisters
  obtain ⟨di, hdi⟩ := hsorted .DiscreteInputs
  obtain ⟨input, hinput⟩ := hsorted .InputRegisters
  obtain ⟨coils, hcoils⟩ := hsorted .Coils
  obtain ⟨reads, hreads⟩ : ∃ reads, prepareReads registers = .ok reads :=
    ⟨_, bind_eq_ok.mpr ⟨holding, hholding, bind_eq_ok.mpr ⟨di, hdi, bind_eq_ok.mpr
      ⟨input, hinput, bind_eq_ok.mpr ⟨coils, hcoils, rfl⟩⟩⟩⟩⟩
  obtain ⟨writable, hwrites⟩ := (prepareWrites_ok_iff registers false).mpr
    fun type => (addWrites_ok_iff _ type false).mpr ((hwritable type).seen false)
  refine ⟨reads, writable, bind_eq_ok.mpr ⟨registers, hvalid, ?_⟩⟩
  rw [hqueries]
  exact bind_eq_ok.mpr ⟨reads, hreads, bind_eq_ok.mpr ⟨writable, hwrites, rfl⟩⟩

/-! ### A long table -/

/-- Names of one repeated letter are ordered by their lengths. -/
private theorem replicate_lt (b : UInt8) {i j : ℕ} (h : i < j) :
    List.replicate i b < List.replicate j b := by
  induction i generalizing j with
  | zero =>
    cases j with
    | zero => cases h
    | succ j => exact List.nil_lt_cons _ _
  | succ i ih =>
    cases j with
    | zero => cases h
    | succ j => exact List.cons_lt_cons_iff.mpr (Or.inr ⟨rfl, ih (Nat.lt_of_succ_lt_succ h)⟩)

/-- One-word registers from address 0 on. -/
def wordTable (n : ℕ) : SingleTypeMap Register where
  entries := (List.range n).map (fun i => (List.replicate (i + 1) 97, { index := i }))
  ascending := by
    rw [List.map_map, List.pairwise_map]
    exact List.pairwise_lt_range.imp fun h => replicate_lt 97 (Nat.succ_lt_succ h)

/-- Registers one before the other are apart. -/
theorem apart_of_before {ρ : Type} [Extent ρ] {regs : List ρ} (h : regs.Pairwise Before) :
    regs.Pairwise Apart := h.imp fun hbefore => Or.inl hbefore

/-- The addresses of the registers of such a table are taken. -/
theorem taken_wordTable {n i : ℕ} (h : i < n) :
    Taken (readableOf ((wordTable n).update Register.asWords) false) i := by
  refine ⟨prepared (List.replicate (i + 1) 97) (Register.asWords { index := i }), ?_, ?_⟩
  · apply List.mem_map.mpr
    refine ⟨(List.replicate (i + 1) 97, Register.asWords { index := i }),
      List.mem_filter.mpr ⟨?_, rfl⟩, rfl⟩
    apply List.mem_map.mpr
    exact ⟨(List.replicate (i + 1) 97, { index := i }),
      List.mem_map.mpr ⟨i, List.mem_range.mpr h, rfl⟩, rfl⟩
  · exact ⟨le_refl _, start_lt_stop _⟩

/-- The registers of such a table take one address each. -/
theorem words_wordTable {n : ℕ} {reg : TypedRegister}
    (hreg : reg ∈ readableOf ((wordTable n).update Register.asWords) false) :
    ∃ i < n, start reg = i ∧ stop reg = i + (1 : ℕ) := by
  obtain ⟨entry, hentry, rfl⟩ := List.mem_map.mp hreg
  obtain ⟨e, he, rfl⟩ := List.mem_map.mp (List.mem_filter.mp hentry).1
  obtain ⟨i, hi, rfl⟩ := List.mem_map.mp he
  have htype : (prepared (List.replicate (i + 1) 97) (Register.asWords { index := i })).1.type =
      .uint16 := rfl
  refine ⟨i, List.mem_range.mp hi, rfl, ?_⟩
  rw [stop_typed, htype]
  rfl

/-- 125 words in a row fit in one request. -/
theorem fits_wordTable :
    Fits .HoldingRegisters (readableOf ((wordTable 125).update Register.asWords) false) := by
  constructor
  · intro reg hreg
    obtain ⟨i, hi, hstart, hstop⟩ := words_wordTable hreg
    omega
  · intro a
    have houtside : ∀ b : ℤ, b < 0 ∨ 125 ≤ b →
        ¬ Taken (readableOf ((wordTable 125).update Register.asWords) false) b := by
      rintro b hb ⟨reg, hreg, hfirst, hlast⟩
      obtain ⟨i, hi, hstart, hstop⟩ := words_wordTable hreg
      omega
    by_cases ha : a < 0
    · exact ⟨0, Nat.zero_le _, houtside _ (by omega)⟩
    · exact ⟨125, le_refl _, houtside _ (by omega)⟩

/-- The registers of the table come one before the other, whichever of them are asked for. -/
theorem before_wordTable (n : ℕ) (type : RegisterType) :
    (readableOf ((wordTable n).update Register.asWords) false).Pairwise Before ∧
      (writableOf ((wordTable n).update Register.asWords) type false).Pairwise Before := by
  have hentries : ((wordTable n).update Register.asWords).entries.Pairwise
      (fun e e' => e.2.1.index + 1 ≤ e'.2.1.index ∧ e.2.1.type = .uint16) := by
    simp only [SingleTypeMap.update, wordTable, List.map_map, List.pairwise_map]
    exact List.pairwise_lt_range.imp fun h => ⟨Int.ofNat_lt.mpr h, rfl⟩
  rw [readableOf, writableOf, List.pairwise_map, List.pairwise_map]
  constructor
  · refine (hentries.filter _).imp ?_
    rintro e e' ⟨hlt, htype⟩
    have hwords : stop (prepared e.1 e.2) = e.2.1.index + (getSizeOf e.2.1.type / 2 : ℕ) := rfl
    rw [Before, hwords, htype]
    exact hlt
  · refine (hentries.filter _).imp ?_
    rintro e e' ⟨hlt, htype⟩
    have hwords : stop (preparedWrite type e.1 e.2) =
        e.2.1.index + (getSizeOf e.2.1.type / 2 : ℕ) := rfl
    rw [Before, hwords, htype]
    exact hlt

/-- A master for such a table is made. -/
theorem exists_wordTable (n : ℕ) :
    ∃ reads writable, prepareMaster (holdingConfig (wordTable n)) = .ok (reads, writable) := by
  obtain ⟨hreadable, hwritable⟩ := before_wordTable n .HoldingRegisters
  apply exists_prepareMaster rfl (validate_holdingConfig (wordTable n))
  · intro type
    cases type with
    | HoldingRegisters => exact ((apart_iff_none _).mp (apart_of_before hreadable)).1
    | Invalid => exact List.Pairwise.nil
    | DiscreteInputs => exact List.Pairwise.nil
    | Coils => exact List.Pairwise.nil
    | InputRegisters => exact List.Pairwise.nil
  · intro type
    cases type with
    | HoldingRegisters => exact ((apart_iff_none _).mp (apart_of_before hwritable)).1
    | Invalid => exact List.Pairwise.nil
    | DiscreteInputs => exact List.Pairwise.nil
    | Coils => exact List.Pairwise.nil
    | InputRegisters => exact List.Pairwise.nil

/-- A table of 125 words in a row fits one request. -/
theorem legal_of_prepareMaster_full :
    ∃ reads writable, prepareMaster (holdingConfig (wordTable 125)) = .ok (reads, writable) ∧
      ∀ read ∈ reads, read.unit.Legal := by
  obtain ⟨reads, writable, hprepared⟩ := exists_wordTable 125
  refine ⟨reads, writable, hprepared,
    (legal_of_prepareMaster hprepared rfl (validate_holdingConfig _)).1 ?_⟩
  intro type
  cases type with
  | HoldingRegisters => exact fits_wordTable
  | Invalid => exact fits_nil _
  | DiscreteInputs => exact fits_nil _
  | Coils => exact fits_nil _
  | InputRegisters => exact fits_nil _

/-- A table of 126 words in a row is accepted, and so is a register at index -1; what is prepared
for them is not legal. -/
theorem illegal_reads :
    (∃ reads writable, prepareMaster (holdingConfig (wordTable 126)) = .ok (reads, writable) ∧
      ¬ ∀ read ∈ reads, read.unit.Legal) ∧
    ∃ reads writable, prepareMaster (holdingConfig
        ⟨[([120], { index := -1 })], List.pairwise_singleton _ _⟩) = .ok (reads, writable) ∧
      ¬ ∀ read ∈ reads, read.unit.Legal := by
  constructor
  · obtain ⟨reads, writable, hprepared⟩ := exists_wordTable 126
    refine ⟨reads, writable, hprepared, ?_⟩
    intro hlegal
    have hreads := prepareReads_of_prepareMaster hprepared rfl (validate_holdingConfig _)
    have hapart := apart_of_before (before_wordTable 126 .HoldingRegisters).1
    have hfits : Fits .HoldingRegisters
        (readableOf ((wordTable 126).update Register.asWords) false) :=
      fits_of_prepareReads hreads hlegal hapart
    obtain ⟨i, hi, hfree⟩ := hfits.free 0
    rw [zero_add] at hfree
    exact hfree (taken_wordTable (Nat.lt_succ_of_le hi))
  · refine ⟨_, _, rfl, ?_⟩
    intro hlegal
    have hfirst := (hlegal _ List.mem_cons_self).from_first
    revert hfirst
    decide

end Radapter.Modbus
