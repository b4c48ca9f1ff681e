import Radapter.Modbus.Prepare
import Radapter.Library.Extents

/-!
# Overlaps that are refused

The registers of a table come in the order of their names. Each is inserted into a list that is
sorted by index, and is compared with the register that it is inserted before. So a register is
refused if one with an earlier name starts in its words. Whether it starts in the words of one with
an earlier name is not asked. The end of its words is an `int`, and wraps at the largest one.
-/

namespace Radapter.Modbus

open Library Library.Extent

/-! ## The words of a register -/

/-- A register has a word. -/
private theorem words_pos (reg : PreparedRegister) : 0 < reg.sizeOf / 2 := by
  rw [reg.sized]
  cases reg.type with
  | defaultValueType => decide
  | uint16 => decide
  | uint32 => decide
  | float32 => decide
  | bit => decide

/-- A register takes half as many words as its value has bytes. -/
instance : Extent PreparedRegister where
  start reg := reg.index
  size reg := reg.sizeOf / 2
  size_pos := words_pos

instance : Extent TypedRegister where
  start reg := reg.1.index
  size reg := reg.1.sizeOf / 2
  size_pos reg := words_pos reg.1

instance : Extent PreparedWriteRegister where
  start reg := reg.index
  size reg := reg.sizeOf / 2
  size_pos reg := words_pos reg.toPreparedRegister

/-- The end of a typed register lies behind its words. -/
theorem stop_typed (reg : TypedRegister) :
    stop reg = reg.1.index + (getSizeOf reg.1.type / 2 : ℕ) := by
  rw [← reg.1.sized]
  rfl

/-! ## Insertion in the order of the names -/

section Insertion

variable {ρ : Type} [Extent ρ] {check : ρ → ρ → Except Raised Unit}

/-- No item starts in one that comes later. -/
def NoneInLater (regs : List ρ) : Prop := regs.Pairwise (fun s r => ¬ Takes r (start s))

/-- No item starts in one that comes earlier. -/
def NoneInEarlier (regs : List ρ) : Prop := regs.Pairwise (fun s r => ¬ Takes s (start r))

instance (regs : List ρ) : Decidable (NoneInLater regs) :=
  inferInstanceAs (Decidable (List.Pairwise _ _))

instance (regs : List ρ) : Decidable (NoneInEarlier regs) :=
  inferInstanceAs (Decidable (List.Pairwise _ _))

/-- Registers are apart if and only if none starts in another one, whichever stands first. -/
theorem apart_iff_none (regs : List ρ) :
    regs.Pairwise Apart ↔ NoneInLater regs ∧ NoneInEarlier regs := by
  rw [NoneInLater, NoneInEarlier, ← List.pairwise_and_iff]
  refine List.Pairwise.iff ?_
  intro s r
  rw [apart_iff, and_comm]

/-- The end of an item as the check computes it. -/
def stopInt (r : ρ) : ℤ := addInt (start r) (size r)

/-- The `int` that the check computes never lies behind the end. -/
theorem stopInt_le (r : ρ) : stopInt r ≤ stop r := addInt_le (start r) (size r)

/-- The first item is seen to reach the start of the second one, or if `strict` to start there. -/
def Seen (strict : Bool) (r s : ρ) : Prop :=
  start r ≤ start s ∧ (strict = true ∧ start s = start r ∨ start s < stopInt r)

instance (strict : Bool) (r s : ρ) : Decidable (Seen strict r s) :=
  inferInstanceAs (Decidable (_ ∧ _))

/-- What is seen is so. -/
theorem Seen.takes {strict : Bool} {r s : ρ} (h : Seen strict r s) : Takes r (start s) := by
  have hlt := start_lt_stop r
  have hle := stopInt_le r
  obtain ⟨hfrom, ⟨-, heq⟩ | hin⟩ := h
  · exact ⟨hfrom, by omega⟩
  · exact ⟨hfrom, by omega⟩

/-- A start in an item is seen, unless the end of the item wraps. -/
theorem seen_of_takes {strict : Bool} {r s : ρ} (h : Takes r (start s)) (hend : stop r < 2 ^ 31) :
    Seen strict r s := by
  refine ⟨h.1, Or.inr ?_⟩
  rw [stopInt, addInt_of_lt hend]
  exact h.2

/-- No item is seen to reach the start of an earlier one. -/
def NoneSeen (strict : Bool) (regs : List ρ) : Prop := regs.Pairwise (fun s r => ¬ Seen strict r s)

/-- No item starts in a later one whose end wraps. -/
def NoneInWrapped (regs : List ρ) : Prop :=
  regs.Pairwise (fun s r => ¬ (Takes r (start s) ∧ 2 ^ 31 ≤ stop r))

instance (strict : Bool) (regs : List ρ) : Decidable (NoneSeen strict regs) :=
  inferInstanceAs (Decidable (List.Pairwise _ _))

instance (regs : List ρ) : Decidable (NoneInWrapped regs) :=
  inferInstanceAs (Decidable (List.Pairwise _ _))

/-- Where no register starts in a later one, the check sees none. -/
theorem NoneInLater.seen {regs : List ρ} (strict : Bool) (h : NoneInLater regs) :
    NoneSeen strict regs :=
  List.Pairwise.imp (fun hno hseen => hno hseen.takes) h

/-- Where nothing is seen, a start in a later item is one in a wrapped item. -/
theorem noneInLater_iff {strict : Bool} {regs : List ρ} (h : NoneSeen strict regs) :
    NoneInLater regs ↔ NoneInWrapped regs := by
  constructor
  · exact List.Pairwise.imp fun hno htakes => hno htakes.1
  · intro hwrapped
    refine List.Pairwise.imp₂ ?_ h hwrapped
    intro s r hunseen hunwrapped htakes
    refine hunwrapped ⟨htakes, ?_⟩
    by_contra hshort
    exact hunseen (seen_of_takes htakes (not_le.mp hshort))

variable {strict : Bool}
  (hcheck : ∀ reg it : ρ, check reg it = .ok () ↔
    ¬ (strict = true ∧ start it = start reg) ∧ stopInt reg ≤ start it)

include hcheck

/-- An insertion is refused if the new item is seen to reach the start of one in the list. -/
theorem insertBy_ok_iff {reg : ρ} {regs : List ρ}
    (hregs : regs.Pairwise (fun r r' => start r ≤ start r')) :
    (∃ out, insertBy start (check reg) reg regs = .ok out) ↔ ∀ it ∈ regs, ¬ Seen strict reg it := by
  induction regs with
  | nil => simp [insertBy]
  | cons it rest ih =>
    obtain ⟨hit, hrest⟩ := List.pairwise_cons.mp hregs
    rw [insertBy, List.forall_mem_cons]
    split_ifs with hlt
    · have hfirst : ¬ Seen strict reg it := fun h => absurd h.1 (not_le.mpr hlt)
      rw [and_iff_right hfirst, ← ih hrest]
      constructor
      · rintro ⟨out, hout⟩
        obtain ⟨inserted, hinserted, -⟩ := map_eq_ok.mp hout
        exact ⟨inserted, hinserted⟩
      · rintro ⟨inserted, hinserted⟩
        exact ⟨it :: inserted, map_eq_ok.mpr ⟨inserted, hinserted, rfl⟩⟩
    · rw [not_lt] at hlt
      constructor
      · rintro ⟨out, hout⟩
        obtain ⟨⟨⟩, hok, -⟩ := map_eq_ok.mp hout
        obtain ⟨hne, hstop⟩ := (hcheck reg it).mp hok
        have hfirst : ∀ r, start it ≤ start r → ¬ Seen strict reg r := by
          -- an element behind `it` at the index of the new one has the index of `it`
          rintro r hr ⟨-, ⟨hstrict, heq⟩ | hin⟩
          · exact hne ⟨hstrict, by omega⟩
          · omega
        exact ⟨hfirst it (le_refl _), fun r hr => hfirst r (hit r hr)⟩
      · rintro ⟨hfree, -⟩
        have hok : check reg it = .ok () := by
          refine (hcheck reg it).mpr ⟨fun h => hfree ⟨hlt, Or.inl h⟩, ?_⟩
          by_contra hno
          exact hfree ⟨hlt, Or.inr (not_le.mp hno)⟩
        exact ⟨_, map_eq_ok.mpr ⟨(), hok, rfl⟩⟩

omit hcheck in
/-- The order is kept by all insertions. -/
theorem foldlM_insertBy_sorted {ε : Type} {f : ε → ρ} {entries : List ε} {sorted out : List ρ}
    (hsorted : sorted.Pairwise (fun r r' => start r ≤ start r'))
    (h : entries.foldlM (fun sorted entry =>
      insertBy start (check (f entry)) (f entry) sorted) sorted = .ok out) :
    out.Pairwise (fun r r' => start r ≤ start r') := by
  induction entries generalizing sorted with
  | nil =>
    cases h
    exact hsorted
  | cons entry rest ih =>
    rw [List.foldlM_cons] at h
    obtain ⟨inserted, hinserted, h⟩ := bind_eq_ok.mp h
    exact ih (insertBy_sorted hinserted hsorted) h

/-- All insertions are done if and only if no item is seen to reach the start of an earlier one. -/
theorem foldlM_insertBy_ok_iff {ε : Type} {f : ε → ρ} {entries : List ε} {sorted : List ρ}
    (hsorted : sorted.Pairwise (fun r r' => start r ≤ start r')) :
    (∃ out, entries.foldlM (fun sorted entry =>
        insertBy start (check (f entry)) (f entry) sorted) sorted = .ok out) ↔
      NoneSeen strict (entries.map f) ∧
        ∀ r ∈ entries.map f, ∀ s ∈ sorted, ¬ Seen strict r s := by
  induction entries generalizing sorted with
  | nil =>
    simp only [List.foldlM_nil, NoneSeen, List.map_nil, List.Pairwise.nil, true_and]
    exact ⟨fun _ r hr => absurd hr List.not_mem_nil, fun _ => ⟨sorted, rfl⟩⟩
  | cons entry rest ih =>
    rw [List.foldlM_cons, List.map_cons, NoneSeen, List.pairwise_cons, List.forall_mem_cons,
      ← insertBy_ok_iff hcheck hsorted]
    constructor
    · rintro ⟨out, hout⟩
      obtain ⟨inserted, hinserted, hout⟩ := bind_eq_ok.mp hout
      have hkept := insertBy_sorted hinserted hsorted
      obtain ⟨hrest, hfree⟩ := (ih hkept).mp ⟨out, hout⟩
      have hmem := fun s => (insertBy_perm hinserted).mem_iff (a := s)
      refine ⟨⟨?_, hrest⟩, ⟨inserted, hinserted⟩, ?_⟩
      · exact fun r hr => hfree r hr _ ((hmem _).mpr List.mem_cons_self)
      · exact fun r hr s hs => hfree r hr s ((hmem s).mpr (List.mem_cons_of_mem _ hs))
    · rintro ⟨⟨hfirst, hrest⟩, ⟨inserted, hinserted⟩, hfree⟩
      have hkept := insertBy_sorted hinserted hsorted
      have hall : ∀ r ∈ rest.map f, ∀ s ∈ inserted, ¬ Seen strict r s := by
        intro r hr s hs
        rcases List.mem_cons.mp ((insertBy_perm hinserted).subset hs) with rfl | hs
        · exact hfirst r hr
        · exact hfree r hr s hs
      obtain ⟨out, hout⟩ := (ih hkept).mpr ⟨hrest, hall⟩
      exact ⟨out, bind_eq_ok.mpr ⟨inserted, hinserted, hout⟩⟩

end Insertion

/-! ## The two functions that insert -/

/-- The registers that `prepareReadableSorted` includes, in the order of their names. -/
def readableOf (map : SingleTypeMap ValidRegister) (include_write_only : Bool) :
    List TypedRegister :=
  (map.entries.filter (fun entry => entry.2.1.mode ≠ .write ∨ include_write_only)).map
    (fun entry => prepared entry.1 entry.2)

/-- The registers that `prepareWrites` includes for a table, in the order of their names. -/
def writableOf (map : SingleTypeMap ValidRegister) (type : RegisterType)
    (include_read_only : Bool) : List PreparedWriteRegister :=
  (map.entries.filter (fun entry => entry.2.1.mode ≠ .read ∨ include_read_only)).map
    (fun entry => preparedWrite type entry.1 entry.2)

/-- The check of `prepareReadableSorted` is strict: it refuses two registers with one start. -/
theorem checkReadable_ok_iff (reg it : TypedRegister) :
    checkReadable reg it = .ok () ↔
      ¬ (true = true ∧ start it = start reg) ∧ stopInt reg ≤ start it := by
  rw [checkReadable]
  split_ifs with heq hover
  · have hstart : start it = start reg := heq
    simp [hstart]
  · have hstop : ¬ stopInt reg ≤ start it := not_le.mpr hover
    simp [hstop]
  · have hstart : ¬ start it = start reg := heq
    have hstop : stopInt reg ≤ start it := not_lt.mp hover
    simp [hstart, hstop]

/-- The check of `prepareWrites` is not: it asks for the end alone. -/
theorem checkWrite_ok_iff (reg it : PreparedWriteRegister) :
    checkWrite reg it = .ok () ↔
      ¬ (false = true ∧ start it = start reg) ∧ stopInt reg ≤ start it := by
  rw [checkWrite]
  split_ifs with hover
  · have hstop : ¬ stopInt reg ≤ start it := not_le.mpr hover
    simp [hstop]
  · have hstop : stopInt reg ≤ start it := not_lt.mp hover
    simp [hstop]

/-- A table is accepted if and only if no register is seen to reach the start of one with an earlier
name. Two readable registers at one index are seen, too. -/
theorem prepareReadableSorted_ok_iff (map : SingleTypeMap ValidRegister)
    (include_write_only : Bool) :
    (∃ sorted, prepareReadableSorted map include_write_only = .ok sorted) ↔
      NoneSeen true (readableOf map include_write_only) := by
  refine (foldlM_insertBy_ok_iff checkReadable_ok_iff List.Pairwise.nil).trans ?_
  simp [readableOf]

/-- `prepareWrites` accepts a table if and only if it sees no overlap in it. -/
theorem addWrites_ok_iff (map : SingleTypeMap ValidRegister) (type : RegisterType)
    (include_read_only : Bool) : (∃ regs, addWrites map type include_read_only = .ok regs) ↔
      NoneSeen false (writableOf map type include_read_only) := by
  refine (foldlM_insertBy_ok_iff checkWrite_ok_iff List.Pairwise.nil).trans ?_
  simp [writableOf]

/-- It keeps all the writable registers of the table. -/
theorem addWrites_perm {map : SingleTypeMap ValidRegister} {type : RegisterType}
    {include_read_only : Bool} {regs : List PreparedWriteRegister}
    (h : addWrites map type include_read_only = .ok regs) :
    regs.Perm (writableOf map type include_read_only) := by
  have hperm := foldlM_insertBy_perm checkWrite h
  rw [List.append_nil] at hperm
  exact hperm

/-- It sorts them by their indices. -/
theorem addWrites_sorted {map : SingleTypeMap ValidRegister} {type : RegisterType}
    {include_read_only : Bool} {regs : List PreparedWriteRegister}
    (h : addWrites map type include_read_only = .ok regs) :
    regs.Pairwise (fun reg reg' => reg.index ≤ reg'.index) :=
  foldlM_insertBy_sorted List.Pairwise.nil h

/-- Registers that are apart have different indices. -/
theorem addWrites_strict {map : SingleTypeMap ValidRegister} {type : RegisterType}
    {include_read_only : Bool} {regs : List PreparedWriteRegister}
    (h : addWrites map type include_read_only = .ok regs)
    (hapart : (writableOf map type include_read_only).Pairwise Apart) :
    regs.Pairwise (fun reg reg' => reg.index < reg'.index) := by
  refine List.Pairwise.imp₂ ?_ (addWrites_sorted h) ((apart_perm (addWrites_perm h)).mpr hapart)
  intro reg reg' hle happart
  have hfirst := start_lt_stop reg
  have hsecond := start_lt_stop reg'
  have hstart : start reg = reg.index := rfl
  have hstart' : start reg' = reg'.index := rfl
  rcases happart with hbehind | hbehind
  · omega
  · omega

/-- The writes of a master can be prepared if and only if those of each table can. -/
theorem prepareWrites_ok_iff (map : RegistersMap ValidRegister) (include_read_only : Bool) :
    (∃ result, prepareWrites map include_read_only = .ok result) ↔
      ∀ type : RegisterType,
        ∃ regs, addWrites (map.table type) type include_read_only = .ok regs := by
  constructor
  · rintro ⟨result, h⟩ type
    obtain ⟨coils, hcoils, h⟩ := bind_eq_ok.mp h
    obtain ⟨di, hdi, h⟩ := bind_eq_ok.mp h
    obtain ⟨holding, hholding, h⟩ := bind_eq_ok.mp h
    obtain ⟨input, hinput, -⟩ := bind_eq_ok.mp h
    cases type with
    | Invalid => exact ⟨[], rfl⟩
    | DiscreteInputs => exact ⟨di, hdi⟩
    | Coils => exact ⟨coils, hcoils⟩
    | InputRegisters => exact ⟨input, hinput⟩
    | HoldingRegisters => exact ⟨holding, hholding⟩
  · intro h
    obtain ⟨coils, hcoils⟩ := h .Coils
    obtain ⟨di, hdi⟩ := h .DiscreteInputs
    obtain ⟨holding, hholding⟩ := h .HoldingRegisters
    obtain ⟨input, hinput⟩ := h .InputRegisters
    refine ⟨_, bind_eq_ok.mpr ⟨coils, hcoils, bind_eq_ok.mpr ⟨di, hdi, bind_eq_ok.mpr
      ⟨holding, hholding, bind_eq_ok.mpr ⟨input, hinput, rfl⟩⟩⟩⟩⟩

/-- No register starts in one with an earlier name, nor in one with a later name whose end wraps; or
some register is seen to reach the start of one with an earlier name. -/
def OverlapsTold {ρ : Type} [Extent ρ] (strict : Bool) (regs : List ρ) : Prop :=
  NoneInEarlier regs ∧ NoneInWrapped regs ∨ ¬ NoneSeen strict regs

instance {ρ : Type} [Extent ρ] (strict : Bool) (regs : List ρ) :
    Decidable (OverlapsTold strict regs) :=
  inferInstanceAs (Decidable (_ ∨ ¬ _))

/-- The check tells overlaps exactly where the first or the last of its lists of cases says so. -/
private theorem none_iff_apart_iff {ρ : Type} [Extent ρ] (strict : Bool) (regs : List ρ) :
    (NoneSeen strict regs ↔ regs.Pairwise Apart) ↔ OverlapsTold strict regs := by
  have hseen := fun h : NoneInLater regs => h.seen strict
  have hwrapped := fun h : NoneSeen strict regs => noneInLater_iff h
  rw [apart_iff_none, OverlapsTold]
  tauto

/-- For a table of readable and for one of writable registers: it is accepted exactly when its
registers are apart, and then sorted by index with nothing lost, if and only if its overlaps are
told by the order of the names and ends that do not wrap. -/
theorem accepted_iff_apart_iff (map : SingleTypeMap ValidRegister) (type : RegisterType)
    (flag : Bool) :
    (((∃ sorted, prepareReadableSorted map flag = .ok sorted) ↔
          (readableOf map flag).Pairwise Apart) ∧
        (∀ sorted, prepareReadableSorted map flag = .ok sorted →
          sorted.Pairwise (fun reg reg' => reg.1.index < reg'.1.index) ∧
            sorted.Perm (readableOf map flag)) ↔
      OverlapsTold true (readableOf map flag)) ∧
    (((∃ regs, addWrites map type flag = .ok regs) ↔
          (writableOf map type flag).Pairwise Apart) ∧
        (∀ regs, addWrites map type flag = .ok regs →
          regs.Pairwise (fun reg reg' => reg.index < reg'.index) ∧
            regs.Perm (writableOf map type flag)) ↔
      OverlapsTold false (writableOf map type flag)) ∧
    ∀ tables : RegistersMap ValidRegister, (∃ result, prepareWrites tables flag = .ok result) ↔
      ∀ type : RegisterType, ∃ regs, addWrites (tables.table type) type flag = .ok regs := by
  refine ⟨?_, ?_, fun tables => prepareWrites_ok_iff tables flag⟩
  · rw [prepareReadableSorted_ok_iff, none_iff_apart_iff]
    exact and_iff_left fun sorted h =>
      ⟨prepareReadableSorted_sorted h, prepareReadableSorted_perm h⟩
  · rw [← none_iff_apart_iff, ← addWrites_ok_iff]
    refine and_iff_left_of_imp ?_
    intro haccepted regs h
    exact ⟨addWrites_strict h (haccepted.mp ⟨regs, h⟩), addWrites_perm h⟩

/-- The table of two word registers with the names `a` and `b`. -/
def twoRegisters (a b : Register) : SingleTypeMap ValidRegister :=
  SingleTypeMap.update Register.asWords
    ⟨[([97], a), ([98], b)], List.pairwise_pair.mpr (show ([97] : Bytes) < [98] by decide)⟩

/-- The end of `b` wraps, so it is not seen that `a` starts in it. -/
example : ¬ OverlapsTold true (readableOf (twoRegisters { index := 2147483647 }
    { index := 2147483646, type := .uint32 }) false) := by decide

/-- `a` with two words at index 0 and `b` at index 1 overlap, and are accepted; with the names
exchanged they are refused. -/
theorem overlap_accepted :
    let wide : Register := { index := 0, type := .uint32 }
    let narrow : Register := { index := 1 }
    ¬ (((∃ sorted, prepareReadableSorted (twoRegisters wide narrow) false = .ok sorted) ↔
        (readableOf (twoRegisters wide narrow) false).Pairwise Apart) ∧
      ∀ sorted, prepareReadableSorted (twoRegisters wide narrow) false = .ok sorted →
        sorted.Pairwise (fun reg reg' => reg.1.index < reg'.1.index) ∧
          sorted.Perm (readableOf (twoRegisters wide narrow) false)) ∧
      (∃ sorted, prepareReadableSorted (twoRegisters wide narrow) false = .ok sorted) ∧
      ¬ (readableOf (twoRegisters wide narrow) false).Pairwise Apart ∧
      (∃ regs, addWrites (twoRegisters wide narrow) .HoldingRegisters false = .ok regs) ∧
      ¬ ∃ sorted, prepareReadableSorted (twoRegisters narrow wide) false = .ok sorted := by
  intro wide narrow
  have hoverlap : ¬ (readableOf (twoRegisters wide narrow) false).Pairwise Apart := by decide
  have hread := (prepareReadableSorted_ok_iff (twoRegisters wide narrow) false).mpr (by decide)
  have hwrite :=
    (addWrites_ok_iff (twoRegisters wide narrow) .HoldingRegisters false).mpr (by decide)
  have hrefused := mt (prepareReadableSorted_ok_iff (twoRegisters narrow wide) false).mp (by decide)
  exact ⟨fun h => hoverlap (h.1.mp hread), hread, hoverlap, hwrite, hrefused⟩

end Radapter.Modbus
