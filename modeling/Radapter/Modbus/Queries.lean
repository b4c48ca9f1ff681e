import Radapter.Modbus.Overlaps

/-!
# Manual queries

`prepareSingleManual` collects the registers that start in a query and raises if one of them reaches
beyond its end. The end of a register is taken to be its index and its size in bytes, while the
query counts words: so a register is refused unless twice its words fit into the query. All ends
are compared as 32-bit integers, and wrap.
-/

namespace Radapter.Modbus

open Library Library.Extent

/-- The register starts in the query, its words counted from `index` on. -/
def ManualQuery.Contains (q : ManualQuery) (reg : TypedRegister) : Prop :=
  (q.index.toNat : ℤ) ≤ start reg ∧ start reg < q.index.toNat + q.count.toNat

instance (q : ManualQuery) (reg : TypedRegister) : Decidable (q.Contains reg) :=
  inferInstanceAs (Decidable (_ ∧ _))

/-- The register starts in the query and its words reach beyond the end. -/
def ManualQuery.Splits (q : ManualQuery) (reg : TypedRegister) : Prop :=
  q.Contains reg ∧ (q.index.toNat + q.count.toNat : ℤ) < stop reg

instance (q : ManualQuery) (reg : TypedRegister) : Decidable (q.Splits reg) :=
  inferInstanceAs (Decidable (_ ∧ _))

/-- The test of the loop. -/
def ManualQuery.Finds (q : ManualQuery) (reg : TypedRegister) : Prop :=
  asInt q.index.toNat ≤ start reg ∧ start reg < asInt (q.index + q.count).toNat

instance (q : ManualQuery) (reg : TypedRegister) : Decidable (q.Finds reg) :=
  inferInstanceAs (Decidable (_ ∧ _))

/-- The end of a register as the loop computes it, `regEnd`. -/
def regEnd (reg : TypedRegister) : ℤ := addInt (start reg) reg.1.sizeOf

/-- The query finds no register that starts behind one that starts at its end or later. -/
private theorem filter_finds_of_behind {q : ManualQuery} {r : TypedRegister}
    {rest : List TypedRegister} (hlater : ∀ reg ∈ rest, start r < start reg)
    (hbehind : asInt (q.index + q.count).toNat ≤ start r) :
    (∀ reg ∈ rest, ¬ q.Finds reg) ∧ rest.filter (fun reg => q.Finds reg) = [] := by
  have hnone : ∀ reg ∈ rest, ¬ q.Finds reg := by
    intro reg hreg hfound
    have hlt := hlater reg hreg
    have hin : start reg < asInt (q.index + q.count).toNat := hfound.2
    omega
  exact ⟨hnone, List.filter_eq_nil_iff.mpr fun reg hreg => by simpa using hnone reg hreg⟩

/-- The loop goes through the registers that it finds, and fails where one has too many bytes. -/
theorem coveredBy_eq_ok {q : ManualQuery} {regs : List TypedRegister}
    (hsorted : regs.Pairwise (fun r s => start r < start s)) {covered : List TypedRegister} :
    coveredBy q regs = .ok covered ↔ covered = regs.filter (fun reg => q.Finds reg) ∧
      ∀ reg ∈ regs, q.Finds reg →
        regEnd reg ≤ asInt (q.index + q.count).toNat := by
  induction regs generalizing covered with
  | nil => simp [coveredBy, eq_comm]
  | cons r rest ih =>
    obtain ⟨hfirst, hrest⟩ := List.pairwise_cons.mp hsorted
    have hfinds : (asInt q.index.toNat ≤ r.1.index ∧ r.1.index < asInt (q.index + q.count).toNat) ↔
        q.Finds r := Iff.rfl
    simp only [coveredBy, hfinds, List.forall_mem_cons]
    by_cases hr : q.Finds r
    · rw [if_pos hr, List.filter_cons_of_pos (by simpa using hr)]
      split_ifs with hbytes
      · have hlong : ¬ regEnd r ≤ asInt (q.index + q.count).toNat := not_le.mpr hbytes
        constructor
        · intro h
          cases h
        · rintro ⟨-, hshort, -⟩
          exact absurd (hshort hr) hlong
      · have hshort : regEnd r ≤ asInt (q.index + q.count).toNat := not_lt.mp hbytes
        rw [map_eq_ok]
        constructor
        · rintro ⟨later, hlater, rfl⟩
          obtain ⟨rfl, hall⟩ := (ih hrest).mp hlater
          exact ⟨rfl, fun _ => hshort, hall⟩
        · rintro ⟨rfl, -, hall⟩
          exact ⟨_, (ih hrest).mpr ⟨rfl, hall⟩, rfl⟩
    · rw [if_neg hr, List.filter_cons_of_neg (by simpa using hr)]
      split_ifs with hbehind
      · obtain ⟨hnone, hempty⟩ := filter_finds_of_behind hfirst hbehind
        rw [hempty, Except.ok.injEq]
        constructor
        · rintro rfl
          exact ⟨rfl, fun h => absurd h hr, fun reg hreg h => absurd h (hnone reg hreg)⟩
        · rintro ⟨rfl, -⟩
          rfl
      · rw [ih hrest]
        simp [hr]

/-! ## The ends of a query as integers -/

/-- The end of a query in the range of an `int`. -/
theorem end_of_lt {q : ManualQuery} (hend : q.index.toNat + q.count.toNat < 2 ^ 31) :
    asInt (q.index + q.count).toNat = q.index.toNat + q.count.toNat := by
  have hsum : (q.index + q.count).toNat = q.index.toNat + q.count.toNat := by
    rw [BitVec.toNat_add]
    omega
  rw [hsum, asInt_of_lt hend]
  push_cast
  rfl

/-- A query that ends in the range of an `int` is compared as it is. -/
theorem finds_iff_contains {q : ManualQuery} (hend : q.index.toNat + q.count.toNat < 2 ^ 31)
    (reg : TypedRegister) : q.Finds reg ↔ q.Contains reg := by
  rw [ManualQuery.Finds, ManualQuery.Contains, end_of_lt hend, asInt_of_lt (by omega)]

/-- Beyond that range, either no register is found or none starts in the query. -/
theorem not_finds_or_not_contains {q : ManualQuery}
    (hend : 2 ^ 31 ≤ q.index.toNat + q.count.toNat) {regs : List TypedRegister}
    (hint : ∀ reg ∈ regs, start reg < 2 ^ 31) :
    (∀ reg ∈ regs, ¬ q.Finds reg) ∨ ∀ reg ∈ regs, ¬ q.Contains reg := by
  have hindex := q.index.isLt
  have hcount := q.count.isLt
  have hsum : (q.index + q.count).toNat = (q.index.toNat + q.count.toNat) % 2 ^ 32 :=
    BitVec.toNat_add _ _
  rcases Nat.lt_or_ge q.index.toNat (2 ^ 31) with hlow | hlow
  · left
    rintro reg hreg ⟨hfrom, hto⟩
    rw [asInt_of_lt hlow] at hfrom
    rw [hsum, asInt] at hto
    omega
  · right
    rintro reg hreg ⟨hfrom, -⟩
    have hlt := hint reg hreg
    omega

/-! ## What a query gives -/

/-- The query raises exactly if it splits a register; else it gives the registers that start in it,
with all their words in the request. -/
def ManualQuery.Served (q : ManualQuery) (regs : List TypedRegister) (type : RegisterType) : Prop :=
  ((∃ raised, prepareSingleManual q regs type = .error raised) ↔ ∃ reg ∈ regs, q.Splits reg) ∧
    ∀ read, prepareSingleManual q regs type = .ok read →
      read.regs = (regs.filter (fun reg => q.Contains reg)).map Subtype.val ∧
        ∀ reg ∈ read.regs, read.unit.startAddress ≤ start reg ∧
          stop reg ≤ read.unit.startAddress + read.unit.valueCount

/-- The registers that a query finds are those that start in it. And it splits one of them and has
no room for the bytes of one, or it splits none and has room for the bytes of each. -/
def ManualQuery.Suits (q : ManualQuery) (regs : List TypedRegister) : Prop :=
  (∀ reg ∈ regs, q.Finds reg ↔ q.Contains reg) ∧
    ((∃ reg ∈ regs, q.Splits reg) ∧
        (∃ reg ∈ regs, q.Contains reg ∧ (q.index.toNat + q.count.toNat : ℤ) < regEnd reg) ∨
      ∀ reg ∈ regs, q.Contains reg →
        ¬ q.Splits reg ∧ regEnd reg ≤ q.index.toNat + q.count.toNat)

instance (q : ManualQuery) (regs : List TypedRegister) : Decidable (q.Suits regs) :=
  inferInstanceAs (Decidable (_ ∧ _))

section Served

variable {q : ManualQuery} {regs : List TypedRegister} {type : RegisterType}

/-- A query gives a read if every register that it finds has room for its bytes. -/
theorem prepareSingleManual_eq_ok (hsorted : regs.Pairwise (fun r s => start r < start s))
    {read : MergedRead} (h : prepareSingleManual q regs type = .ok read) :
    read.regs = (regs.filter (fun reg => q.Finds reg)).map Subtype.val ∧
      read.unit.startAddress = asInt q.index.toNat ∧ read.unit.valueCount = q.count.toNat ∧
      ∀ reg ∈ regs, q.Finds reg →
        regEnd reg ≤ asInt (q.index + q.count).toNat := by
  obtain ⟨covered, hcovered, rfl⟩ := map_eq_ok.mp h
  obtain ⟨rfl, hall⟩ := (coveredBy_eq_ok hsorted).mp hcovered
  exact ⟨rfl, rfl, rfl, hall⟩

/-- A query raises if and only if it finds a register that reaches beyond its end, as the loop
computes the end. -/
theorem prepareSingleManual_eq_error (hsorted : regs.Pairwise (fun r s => start r < start s)) :
    (∃ raised, prepareSingleManual q regs type = .error raised) ↔ ∃ reg ∈ regs, q.Finds reg ∧
      asInt (q.index + q.count).toNat < regEnd reg := by
  have hok : (∃ read, prepareSingleManual q regs type = .ok read) ↔
      ∀ reg ∈ regs, q.Finds reg →
        regEnd reg ≤ asInt (q.index + q.count).toNat := by
    constructor
    · rintro ⟨read, h⟩
      exact (prepareSingleManual_eq_ok hsorted h).2.2.2
    · intro hall
      exact ⟨_, map_eq_ok.mpr ⟨_, (coveredBy_eq_ok hsorted).mpr ⟨rfl, hall⟩, rfl⟩⟩
  have hcases : (∃ raised, prepareSingleManual q regs type = .error raised) ↔
      ¬ ∃ read, prepareSingleManual q regs type = .ok read := by
    cases prepareSingleManual q regs type with
    | error raised => simp
    | ok read => simp
  rw [hcases, hok]
  push Not
  rfl

/-- A query whose own end is within the range of an `int` is served exactly where it suits the
registers. -/
private theorem served_iff_of_lt (hsorted : regs.Pairwise (fun r s => start r < start s))
    (hend : q.index.toNat + q.count.toNat < 2 ^ 31) : q.Served regs type ↔ q.Suits regs := by
  have hfinds := finds_iff_contains hend
  have herror : (∃ raised, prepareSingleManual q regs type = .error raised) ↔
      ∃ reg ∈ regs, q.Contains reg ∧ (q.index.toNat + q.count.toNat : ℤ) < regEnd reg := by
    rw [prepareSingleManual_eq_error hsorted, end_of_lt hend]
    simp only [hfinds]
  rw [ManualQuery.Served, ManualQuery.Suits, herror, and_iff_right fun reg _ => hfinds reg]
  constructor
  · rintro ⟨hraised, -⟩
    by_cases hsplit : ∃ reg ∈ regs, q.Splits reg
    · exact Or.inl ⟨hsplit, hraised.mpr hsplit⟩
    · right
      intro reg hreg hcontains
      refine ⟨fun hreach => hsplit ⟨reg, hreg, hreach⟩, ?_⟩
      by_contra hbytes
      exact hsplit (hraised.mp ⟨reg, hreg, hcontains, not_le.mp hbytes⟩)
  · intro hsuits
    have hiff : (∃ reg ∈ regs, q.Contains reg ∧
        (q.index.toNat + q.count.toNat : ℤ) < regEnd reg) ↔ ∃ reg ∈ regs, q.Splits reg := by
      rcases hsuits with ⟨hsplit, hbytes⟩ | hroom
      · exact ⟨fun _ => hsplit, fun _ => hbytes⟩
      · constructor
        · rintro ⟨reg, hreg, hcontains, hbytes⟩
          exact absurd (hroom reg hreg hcontains).2 (not_le.mpr hbytes)
        · rintro ⟨reg, hreg, hsplit⟩
          exact absurd hsplit (hroom reg hreg hsplit.1).1
    refine ⟨hiff, ?_⟩
    intro read hread
    obtain ⟨hregs, hstart, hcount, hroom⟩ := prepareSingleManual_eq_ok hsorted hread
    rw [asInt_of_lt (by omega)] at hstart
    rw [end_of_lt hend] at hroom
    refine ⟨by simpa only [hfinds] using hregs, ?_⟩
    intro reg hreg
    rw [hregs] at hreg
    obtain ⟨r, hr, rfl⟩ := List.mem_map.mp hreg
    obtain ⟨hmem, hfound⟩ := List.mem_filter.mp hr
    have hcontains := (hfinds r).mp (of_decide_eq_true hfound)
    have hwhole : ¬ q.Splits r := by
      intro hsplit
      obtain ⟨s, hs, hs', hbytes⟩ := hiff.mpr ⟨r, hmem, hsplit⟩
      exact absurd (hroom s hs ((hfinds s).mpr hs')) (not_le.mpr hbytes)
    have hstop : stop r.1 = stop r := rfl
    have hfirst : start r.1 = start r := rfl
    rw [hstart, hcount, hstop, hfirst]
    exact ⟨hcontains.1, not_lt.mp fun hreach => hwhole ⟨hcontains, hreach⟩⟩

/-- A query that finds no register or contains none suits if it does neither. -/
private theorem served_iff_of_none (hsorted : regs.Pairwise (fun r s => start r < start s))
    (hnone : (∀ reg ∈ regs, ¬ q.Finds reg) ∨ ∀ reg ∈ regs, ¬ q.Contains reg) :
    q.Served regs type ↔ q.Suits regs := by
  constructor
  · rintro ⟨hraised, hread⟩
    have hfinds : ∀ reg ∈ regs, q.Finds reg ↔ q.Contains reg := by
      cases hresult : prepareSingleManual q regs type with
      | error raised =>
        obtain ⟨r, hr, hfound, -⟩ := (prepareSingleManual_eq_error hsorted).mp ⟨raised, hresult⟩
        obtain ⟨r', hr', hsplit⟩ := hraised.mp ⟨raised, hresult⟩
        rcases hnone with hnone | hnone
        · exact absurd hfound (hnone r hr)
        · exact absurd hsplit.1 (hnone r' hr')
      | ok read =>
        have hregs := (hread read hresult).1
        rw [(prepareSingleManual_eq_ok hsorted hresult).1] at hregs
        have hfilter := List.map_injective_iff.mpr Subtype.val_injective hregs
        intro reg hreg
        have hmem := congrArg (fun l => reg ∈ l) hfilter
        simpa [List.mem_filter, hreg] using hmem
    refine ⟨hfinds, Or.inr ?_⟩
    intro reg hreg hcontains
    rcases hnone with hnone | hnone
    · exact absurd ((hfinds reg hreg).mpr hcontains) (hnone reg hreg)
    · exact absurd hcontains (hnone reg hreg)
  · rintro ⟨hfinds, -⟩
    have hneither : ∀ reg ∈ regs, ¬ q.Finds reg ∧ ¬ q.Contains reg := by
      intro reg hreg
      rcases hnone with hnone | hnone
      · exact ⟨hnone reg hreg, fun h => hnone reg hreg ((hfinds reg hreg).mpr h)⟩
      · exact ⟨fun h => hnone reg hreg ((hfinds reg hreg).mp h), hnone reg hreg⟩
    have hempty : regs.filter (fun reg => q.Finds reg) = [] :=
      List.filter_eq_nil_iff.mpr fun reg hreg => by simpa using (hneither reg hreg).1
    have hempty' : regs.filter (fun reg => q.Contains reg) = [] :=
      List.filter_eq_nil_iff.mpr fun reg hreg => by simpa using (hneither reg hreg).2
    constructor
    · rw [prepareSingleManual_eq_error hsorted]
      constructor
      · rintro ⟨reg, hreg, hfound, -⟩
        exact absurd hfound (hneither reg hreg).1
      · rintro ⟨reg, hreg, hsplit⟩
        exact absurd hsplit.1 (hneither reg hreg).2
    · intro read hread
      have hregs := (prepareSingleManual_eq_ok hsorted hread).1
      rw [hempty] at hregs
      rw [hregs, hempty']
      exact ⟨rfl, fun reg hreg => absurd hreg List.not_mem_nil⟩

/-- For registers in the order of their indices, none of which overlaps the next: a query is served
if and only if it suits them. -/
theorem served_iff_suits (hregs : regs.Pairwise Before) (hint : ∀ reg ∈ regs, start reg < 2 ^ 31) :
    q.Served regs type ↔ q.Suits regs := by
  have hsorted : regs.Pairwise (fun r s => start r < start s) :=
    hregs.imp fun {r s} h => lt_of_lt_of_le (start_lt_stop r) h
  rcases Nat.lt_or_ge (q.index.toNat + q.count.toNat) (2 ^ 31) with hend | hend
  · exact served_iff_of_lt hsorted hend
  · exact served_iff_of_none hsorted (not_finds_or_not_contains hend hint)

end Served

/-- A register of one word and one of two words that is cut off by the end of the query. -/
theorem served_iff_suits_split :
    ManualQuery.Served ⟨.holding, 0, 10⟩ [prepared [97] (Register.asWords { index := 2 }),
        prepared [98] (Register.asWords { index := 9, type := .uint32 })] .HoldingRegisters :=
  (served_iff_suits (by decide) (by decide)).mpr (by decide)

/-- The end of the register wraps, so it is not seen that the query splits it. -/
example : ¬ ManualQuery.Suits ⟨.holding, 2147483646, 1⟩
    [prepared [97] (Register.asWords { index := 2147483646, type := .uint32 })] := by decide

/-- A register of one word in the last place of a query is refused, though its word is in the
query. -/
theorem query_refuses_last :
    let reg := prepared [97] (Register.asWords { index := 9 })
    let q : ManualQuery := ⟨.holding, 0, 10⟩
    ¬ q.Served [reg] .HoldingRegisters ∧ ¬ q.Splits reg ∧ stop reg = 10 ∧
      ∃ raised, prepareSingleManual q [reg] .HoldingRegisters = .error raised := by
  intro reg q
  have hsplit : ¬ q.Splits reg := by decide
  have hraised : ∃ raised, prepareSingleManual q [reg] .HoldingRegisters = .error raised :=
    (prepareSingleManual_eq_error (List.pairwise_singleton _ reg)).mpr
      ⟨reg, List.mem_singleton_self reg, by decide, by decide⟩
  refine ⟨?_, hsplit, by decide, hraised⟩
  rintro ⟨hiff, -⟩
  obtain ⟨r, hr, hr'⟩ := hiff.mp hraised
  rw [List.mem_singleton.mp hr] at hr'
  exact hsplit hr'

end Radapter.Modbus
