import Radapter.Modbus.ServerMap
import Radapter.Modbus.SlaveValues

/-!
# What a slave reports

A remote write should make the slave report the registers whose values it changes. The slave
compares their values with the ones that it remembers, which are those of its messages, whatever
their types are. So the comparison is right as long as every remembered value compares with all
values of its register like the value that the register has.
-/

namespace Radapter.Modbus

open Library

/-! ## The loop -/

/-- The registers of a range and their values. -/
def overlapping (words : PreparedRegister → Words) (address : ℤ) (size : ℕ)
    (regs : List PreparedRegister) : List (Bytes × Scalar) :=
  (regs.filter (fun reg => reg.Overlaps address size)).map
    (fun reg => (reg.key, decoded reg (words reg)))

/-- The loop notes the values of the registers that the range overlaps: it stops at the first that
begins behind the range, and the others come later. -/
theorem writtenLoop_eq (eq : Scalar → Scalar → Bool) (words : PreparedRegister → Words)
    (address : ℤ) (size : ℕ) {regs : List PreparedRegister}
    (htyped : ∀ reg ∈ regs, reg.type ≠ .defaultValueType)
    (hsorted : regs.Pairwise (fun reg reg' => reg.index < reg'.index)) (s : Written) :
    writtenLoop eq words address size regs s = some {
      currentState := (overlapping words address size regs).foldl (note eq) s.currentState
      diff := s.diff ++ (changes eq s.currentState (overlapping words address size regs)).map
        (fun e => (e.1, .leaf e.2)) } := by
  induction regs generalizing s with
  | nil => simp [writtenLoop, overlapping, changes]
  | cons reg rest ih =>
    obtain ⟨hreg, hrest⟩ := List.forall_mem_cons.mp htyped
    obtain ⟨hfirst, hlater⟩ := List.pairwise_cons.mp hsorted
    rw [writtenLoop]
    split_ifs with hbefore hbehind
    · have hapart : ¬ reg.Overlaps address size := fun h => absurd h.1 (by omega)
      have hskip : overlapping words address size (reg :: rest) =
          overlapping words address size rest := by simp [overlapping, hapart]
      rw [hskip]
      exact ih hrest hlater s
    · have hnone : overlapping words address size (reg :: rest) = [] := by
        rw [overlapping, List.map_eq_nil_iff, List.filter_eq_nil_iff]
        intro r hr
        have hindex : reg.index ≤ r.index := by
          rcases List.mem_cons.mp hr with rfl | hr
          · exact le_rfl
          · exact le_of_lt (hfirst r hr)
        have hapart : ¬ r.Overlaps address size := fun h => absurd h.2 (by omega)
        simpa using hapart
      simp [hnone, changes]
    · have hoverlaps : reg.Overlaps address size := ⟨by omega, by omega⟩
      have htake : overlapping words address size (reg :: rest) =
          (reg.key, decoded reg (words reg)) :: overlapping words address size rest := by
        simp [overlapping, hoverlaps]
      simp only [decodeRegister_eq hreg, htake, List.foldl_cons, changes]
      split_ifs with heq
      · rw [note_of_eq heq]
        exact ih hrest hlater s
      · rw [note_of_ne (Bool.eq_false_iff.mpr heq), ih hrest hlater]
        simp

namespace Slaving

section Steps

variable {qt : Conversions} {eq : Scalar → Scalar → Bool} {server : QModbusServer} {slave : Slave}
  {s : Slaving server} {type : RegisterType} {address : ℤ} {values : List Word}

/-- The registers that a write overlaps and their values after it. -/
def reread (slave : Slave) (t : server.State) (type : RegisterType) (address : ℤ) (size : ℕ) :
    List (Bytes × Scalar) :=
  overlapping (server.wordsOf t type) address size ((slave.sorted type).map Subtype.val)

/-- The slave has noted the values of the registers that a write overlaps. -/
structure Noted (eq : Scalar → Scalar → Bool) (slave : Slave) (s t : Slaving server)
    (type : RegisterType) (address : ℤ) (size : ℕ) : Prop where
  state : t.currentState =
    (reread slave t.server type address size).foldl (note eq) s.currentState
  known : t.known = s.known ++
    (changes eq s.currentState (reread slave t.server type address size)).map (fun e => (type, e.1))

/-- A write is refused or signals no change, or the values of the registers that it overlaps are
noted. -/
theorem write_cases (eq : Scalar → Scalar → Bool) (hslave : slave.WellFormed)
    (s : Slaving server) (type : RegisterType) (address : ℤ) (values : List Word) :
    (∃ u, s.write eq slave type address values = some ({ s with server := u }, []) ∧
      ∀ type a, server.data u type a = server.data s.server type a) ∨
    ∃ t, server.setData s.server (unitOf type address values) = some (t.server, true) ∧
      s.write eq slave type address values = some (t,
        (changes eq s.currentState (reread slave t.server type address values.length)).map
          (fun e => (e.1, .leaf e.2))) ∧
      s.Noted eq slave t type address values.length := by
  rw [write]
  cases hset : server.setData s.server (unitOf type address values) with
  | none => exact Or.inl ⟨s.server, rfl, fun _ _ => rfl⟩
  | some result =>
    obtain ⟨u, signals⟩ := result
    cases signals with
    | false => exact Or.inl ⟨u, rfl, server.data_silent hset⟩
    | true =>
      right
      have htyped : ∀ reg ∈ (slave.sorted type).map Subtype.val, reg.type ≠ .defaultValueType := by
        intro reg hreg
        obtain ⟨r, -, rfl⟩ := List.mem_map.mp hreg
        exact r.2
      have hsorted : ((slave.sorted type).map Subtype.val).Pairwise
          (fun reg reg' => reg.index < reg'.index) :=
        List.pairwise_map.mpr (hslave.sorted_index type)
      have hloop := writtenLoop_eq eq (server.wordsOf u type) address values.length htyped hsorted
        { currentState := s.currentState }
      simp only [onDataWritten, hloop, Option.bind_eq_bind, Option.bind_some, List.nil_append,
        List.map_map]
      exact ⟨_, rfl, rfl, rfl, rfl⟩

/-- An entry is dropped or refused, or its value is stored and remembered. -/
theorem set_cases (qt : Conversions) (slave : Slave) (s : Slaving server) (k : Bytes) (v : Scalar) :
    s.set qt slave k v = s ∨
    ∃ reg unit t signals, slave.accept qt k v = some (reg, unit) ∧
      server.setData s.server unit = some (t, signals) ∧
      s.set qt slave k v = { s with
        server := t
        currentState := Function.update s.currentState k v
        known := s.known ++ [(reg.mbType, k)] } := by
  rw [set]
  split
  · exact Or.inl rfl
  next reg unit haccept =>
  split
  · exact Or.inl rfl
  next t signals hset => exact Or.inr ⟨reg, unit, t, signals, haccept, hset, rfl⟩

/-! ## Right reports -/

/-- A write of a client makes the slave report the registers that it overlaps and whose values it
changes, and no others but such as have not been set or reported before. -/
def ReportsChanges (eq : Scalar → Scalar → Bool) (slave : Slave) (s : Slaving server)
    (type : RegisterType) (address : ℤ) (values : List Word) : Prop :=
  ∃ t diff, s.write eq slave type address values = some (t, diff) ∧
    ∀ reg ∈ slave.sorted type,
      let changed := (server.valueOf t.server type reg.1).number ≠
        (server.valueOf s.server type reg.1).number
      (reg.1.key ∈ diff.map Prod.fst → reg.1.Overlaps address values.length ∧
        (changed ∨ (type, reg.1.key) ∉ s.known)) ∧
      (reg.1.Overlaps address values.length ∧ changed → reg.1.key ∈ diff.map Prod.fst)

/-- A remembered value compares with the values of a register as the value `d` does. -/
def StandsFor (eq : Scalar → Scalar → Bool) (reg : PreparedRegister) (v d : Scalar) : Prop :=
  ∀ first second, eq v (decoded reg (reg.places first second)) = true ↔
    d.number = (decoded reg (reg.places first second)).number

/-- No register of another table has been set or reported under the key. -/
def Owns (s : Slaving server) (type : RegisterType) (k : Bytes) : Prop :=
  ∀ type', (type', k) ∈ s.known → type' = type

/-- What an entry that the server takes has to meet. -/
structure GoodEntry (eq : Scalar → Scalar → Bool) (slave : Slave) (s : Slaving server) (v : Scalar)
    (reg : PreparedWriteRegister) (words : List Word) : Prop where
  addressable : reg.Addressable
  owns : s.Owns reg.mbType reg.key
  stands : StandsFor eq reg.toPreparedRegister v
    (decoded reg.toPreparedRegister (reg.places (words.getD 0 0) (words.getD 1 0)))
  apart : ∀ other ∈ slave.sorted reg.mbType, (reg.mbType, other.1.key) ∈ s.known →
    other.1.key ≠ reg.key → ¬ other.1.Overlaps reg.index words.length

/-- What a write of a client has to meet, for a register that it overlaps. -/
structure GoodWrite (s : Slaving server) (type : RegisterType) (address : ℤ) (values : List Word)
    (reg : PreparedRegister) : Prop where
  addressable : reg.Addressable
  owns : s.Owns type reg.key
  noNaN : ∀ t signals, server.setData s.server (unitOf type address values) = some (t, signals) →
    (server.valueOf t type reg).isNaN = false

/-- The condition on a step. -/
def Good (qt : Conversions) (eq : Scalar → Scalar → Bool) (slave : Slave) (s : Slaving server) :
    SlaveAction → Prop
  | .entry k v => ∀ reg unit, slave.accept qt k v = some (reg, unit) →
      (server.setData s.server unit).isSome → s.GoodEntry eq slave v reg unit.values
  | .written type address values => ∀ reg ∈ slave.sorted type,
      reg.1.Overlaps address values.length → s.GoodWrite type address values reg.1

/-- The values of the registers that have been set or reported are remembered. -/
structure Faithful (eq : Scalar → Scalar → Bool) (slave : Slave) (s : Slaving server) : Prop where
  known : ∀ type, ∀ reg ∈ slave.sorted type, (type, reg.1.key) ∈ s.known →
    reg.1.Addressable ∧
      StandsFor eq reg.1 (s.currentState reg.1.key) (server.valueOf s.server type reg.1)
  noted : ∀ k, s.currentState k = .invalid ∨ ∃ type, (type, k) ∈ s.known

/-! ## Steps -/

/-- A write makes the slave read the registers that it overlaps. -/
theorem mem_reread {u : server.State} {size : ℕ} {e : Bytes × Scalar} :
    e ∈ reread slave u type address size ↔ ∃ reg ∈ slave.sorted type,
      reg.1.Overlaps address size ∧ e = (reg.1.key, server.valueOf u type reg.1) := by
  simp only [reread, overlapping, List.mem_map, List.mem_filter, decide_eq_true_eq]
  constructor
  · rintro ⟨-, ⟨⟨reg, hreg, rfl⟩, hoverlaps⟩, rfl⟩
    exact ⟨reg, hreg, hoverlaps, rfl⟩
  · rintro ⟨reg, hreg, hoverlaps, rfl⟩
    exact ⟨reg.1, ⟨⟨reg, hreg, rfl⟩, hoverlaps⟩, rfl⟩

/-- They have different keys. -/
theorem reread_keys (hslave : slave.WellFormed) (u : server.State) (size : ℕ) :
    ((reread slave u type address size).map Prod.fst).Nodup := by
  rw [reread, overlapping, List.map_map]
  have hkeys := hslave.sorted_keys type
  refine List.Nodup.sublist (List.filter_sublist.map PreparedRegister.key) ?_
  rwa [List.map_map]

/-- A register is reported if it is overlapped and differs from the remembered value. -/
theorem reported_iff (hslave : slave.WellFormed) {u : server.State} {size : ℕ}
    {reg : TypedRegister} (hreg : reg ∈ slave.sorted type) (currentState : Bytes → Scalar) :
    reg.1.key ∈ (changes eq currentState (reread slave u type address size)).map Prod.fst ↔
      reg.1.Overlaps address size ∧
        eq (currentState reg.1.key) (server.valueOf u type reg.1) = false := by
  rw [List.mem_map]
  constructor
  · rintro ⟨e, he, hkey⟩
    obtain ⟨hmem, hne⟩ := (mem_changes_iff_of_nodup (reread_keys hslave u size)).mp he
    obtain ⟨reg', hreg', hoverlaps, rfl⟩ := mem_reread.mp hmem
    obtain rfl := List.inj_on_of_nodup_map (hslave.sorted_keys type) hreg' hreg hkey
    exact ⟨hoverlaps, hne⟩
  · rintro ⟨hoverlaps, hne⟩
    refine ⟨(reg.1.key, server.valueOf u type reg.1), ?_, rfl⟩
    apply (mem_changes_iff_of_nodup (reread_keys hslave u size)).mpr
    exact ⟨mem_reread.mpr ⟨reg, hreg, hoverlaps, rfl⟩, hne⟩

/-- The value of a register stands for itself, unless it is a NaN. -/
theorem standsFor_self
    (heq : ∀ v w, v.IsRegisterValue → w.IsRegisterValue → eq v w = v.equals qt w)
    {reg : PreparedRegister} {data : Words} (hnan : (decoded reg data).isNaN = false) :
    StandsFor eq reg (decoded reg data) (decoded reg data) := by
  intro first second
  rw [heq _ _ (decoded_isRegisterValue _ _) (decoded_isRegisterValue _ _)]
  exact equals_decoded_iff qt reg hnan

/-- A remembered value equals that of a register as the number that it stands for does. -/
theorem StandsFor.valueOf {reg : PreparedRegister} {v d : Scalar} (h : StandsFor eq reg v d)
    {u : server.State} : eq v (server.valueOf u type reg) = true ↔
      d.number = (server.valueOf u type reg).number := h _ _

/-- A register that nothing is remembered for differs from what is remembered. -/
theorem Faithful.eq_of_unknown
    (heq : ∀ v w, v.IsRegisterValue → w.IsRegisterValue → eq v w = v.equals qt w)
    (hs : s.Faithful eq slave) {reg : TypedRegister} (howns : s.Owns type reg.1.key)
    (hunknown : (type, reg.1.key) ∉ s.known) (data : Words) :
    eq (s.currentState reg.1.key) (decoded reg.1 data) = false := by
  rcases hs.noted reg.1.key with hnull | ⟨type', hknown⟩
  · rw [hnull, heq .invalid _ trivial (decoded_isRegisterValue _ _)]
    exact Scalar.invalid_equals qt (decoded_ne_invalid reg.2 data)
  · rw [howns type' hknown] at hknown
    exact absurd hknown hunknown

/-- A slave that remembers its values reports exactly the registers whose values a good write
changes. -/
theorem Faithful.reportsChanges
    (heq : ∀ v w, v.IsRegisterValue → w.IsRegisterValue → eq v w = v.equals qt w)
    (hslave : slave.WellFormed) (hs : s.Faithful eq slave)
    (hgood : s.Good qt eq slave (.written type address values)) :
    s.ReportsChanges eq slave type address values := by
  rcases write_cases eq hslave s type address values with
    ⟨u, hwrite, hdata⟩ | ⟨t, hset, hwrite, -⟩
  · refine ⟨_, _, hwrite, ?_⟩
    intro reg hreg
    have hsame : server.valueOf u type reg.1 = server.valueOf s.server type reg.1 := by
      simp only [QModbusServer.valueOf, QModbusServer.wordsOf, hdata]
    simp [hsame]
  · refine ⟨_, _, hwrite, ?_⟩
    intro reg hreg
    rw [List.map_map]
    have hreported : reg.1.key ∈ (changes eq s.currentState
        (reread slave t.server type address values.length)).map Prod.fst ↔ _ :=
      reported_iff hslave hreg s.currentState
    constructor
    · intro hmem
      obtain ⟨hoverlaps, hne⟩ := hreported.mp hmem
      refine ⟨hoverlaps, ?_⟩
      by_cases hknown : (type, reg.1.key) ∈ s.known
      · left
        intro hsame
        have hstands := (hs.known type reg hreg hknown).2
        rw [hstands.valueOf.mpr hsame.symm] at hne
        cases hne
      · exact Or.inr hknown
    · rintro ⟨hoverlaps, hchanged⟩
      refine hreported.mpr ⟨hoverlaps, ?_⟩
      by_cases hknown : (type, reg.1.key) ∈ s.known
      · have hstands := (hs.known type reg hreg hknown).2
        rw [Bool.eq_false_iff]
        intro hequal
        exact hchanged (hstands.valueOf.mp hequal).symm
      · exact hs.eq_of_unknown heq (hgood reg hreg hoverlaps).owns hknown _

/-- What is known of an entry that gets as far as the server. -/
theorem accept_eq_some (hslave : slave.WellFormed) {k : Bytes} {v : Scalar}
    {reg : PreparedWriteRegister} {unit : QModbusDataUnit}
    (h : slave.accept qt k v = some (reg, unit)) :
    reg.key = k ∧ (∃ r ∈ slave.sorted reg.mbType, r.1 = reg.toPreparedRegister) ∧
      unit.registerType = reg.mbType ∧ unit.startAddress = reg.index ∧
      unit.values.length = reg.sizeOf / 2 := by
  rw [Slave.accept] at h
  split_ifs at h
  split at h
  · cases h
  next reg' hreg =>
  split at h
  · cases h
  next words hwords =>
  cases h
  obtain ⟨hkey, hsorted⟩ := hslave.all_sorted hreg
  exact ⟨hkey, hsorted, rfl, rfl, encodeRegister_length hwords⟩

/-- The register that is set is remembered as its value. -/
theorem GoodEntry.stands_set {v : Scalar} {reg : PreparedWriteRegister} {unit : QModbusDataUnit}
    {t : server.State} {signals : Bool} (hentry : s.GoodEntry eq slave v reg unit.values)
    (hset : server.setData s.server unit = some (t, signals))
    (htype : unit.registerType = reg.mbType) (hstart : unit.startAddress = reg.index)
    (hlength : unit.values.length = reg.sizeOf / 2) :
    StandsFor eq reg.toPreparedRegister v
      (server.valueOf t reg.mbType reg.toPreparedRegister) := by
  rw [valueOf_written hset hentry.addressable htype hstart hlength]
  exact hentry.stands

/-- The other registers keep their values. -/
theorem GoodEntry.stands_other (hs : s.Faithful eq slave) {v : Scalar}
    {reg : PreparedWriteRegister} {unit : QModbusDataUnit} {t : server.State} {signals : Bool}
    (hentry : s.GoodEntry eq slave v reg unit.values)
    (hset : server.setData s.server unit = some (t, signals))
    (htype : unit.registerType = reg.mbType) (hstart : unit.startAddress = reg.index)
    {other : TypedRegister} (hother : other ∈ slave.sorted type)
    (hknown : (type, other.1.key) ∈ s.known) (hne : other.1.key ≠ reg.key) :
    other.1.Addressable ∧
      StandsFor eq other.1 (s.currentState other.1.key) (server.valueOf t type other.1) := by
  obtain ⟨haddress, hstands⟩ := hs.known type other hother hknown
  have hapart : type ≠ unit.registerType ∨
      ¬ other.1.Overlaps unit.startAddress unit.values.length := by
    rw [htype, hstart]
    by_cases htable : type = reg.mbType
    · subst htable
      exact Or.inr (hentry.apart other hother hknown hne)
    · exact Or.inl htable
  rw [valueOf_other hset haddress hapart]
  exact ⟨haddress, hstands⟩

/-- An entry that the server takes is remembered under its key. -/
theorem Faithful.set (hslave : slave.WellFormed) (hs : s.Faithful eq slave) {k : Bytes}
    {v : Scalar} (hgood : s.Good qt eq slave (.entry k v)) :
    (s.set qt slave k v).Faithful eq slave := by
  rcases set_cases qt slave s k v with hsame | ⟨reg, unit, t, signals, haccept, hset, hresult⟩
  · rw [hsame]
    exact hs
  have hentry := hgood reg unit haccept (by rw [hset]; rfl)
  obtain ⟨rfl, ⟨r, hr, hreg⟩, htype, hstart, hlength⟩ := accept_eq_some hslave haccept
  rw [hresult]
  constructor
  · intro type other hother hknown
    dsimp only at hknown ⊢
    by_cases hkey : other.1.key = reg.key
    · -- the entry owns the key, so this is the register that is set
      obtain rfl : type = reg.mbType := by
        rcases List.mem_append.mp hknown with hold | hnew
        · exact hentry.owns type (hkey ▸ hold)
        · exact (Prod.mk.inj (List.mem_singleton.mp hnew)).1
      obtain rfl : other = r := by
        apply List.inj_on_of_nodup_map (hslave.sorted_keys reg.mbType) hother hr
        rw [hkey, hreg]
      rw [hreg, Function.update_self]
      exact ⟨hentry.addressable, hentry.stands_set hset htype hstart hlength⟩
    · have hold : (type, other.1.key) ∈ s.known := by
        rcases List.mem_append.mp hknown with hold | hnew
        · exact hold
        · exact absurd (Prod.mk.inj (List.mem_singleton.mp hnew)).2 hkey
      rw [Function.update_of_ne hkey]
      exact hentry.stands_other hs hset htype hstart hother hold hkey
  · intro k'
    dsimp only
    by_cases hk : k' = reg.key
    · exact Or.inr ⟨reg.mbType, by simp [hk]⟩
    · rw [Function.update_of_ne hk]
      exact (hs.noted k').imp_right fun ⟨type, hknown⟩ => ⟨type, List.mem_append_left _ hknown⟩

section Noted

variable {t : Slaving server} {size : ℕ}

/-- The register of an overlapped range is remembered with its value after the write. -/
theorem Noted.state_overlapped (h : s.Noted eq slave t type address size)
    (hslave : slave.WellFormed) {reg : TypedRegister} (hreg : reg ∈ slave.sorted type)
    (hoverlaps : reg.1.Overlaps address size) : t.currentState reg.1.key =
      note eq s.currentState (reg.1.key, server.valueOf t.server type reg.1) reg.1.key := by
  rw [h.state]
  have hmem : (reg.1.key, server.valueOf t.server type reg.1) ∈
      reread slave t.server type address size := mem_reread.mpr ⟨reg, hreg, hoverlaps, rfl⟩
  exact foldl_note_of_nodup (reread_keys hslave t.server size) hmem

/-- What the write does not overlap is remembered as before. -/
theorem Noted.state_other (h : s.Noted eq slave t type address size) {k : Bytes}
    (hk : ∀ reg ∈ slave.sorted type, reg.1.Overlaps address size → reg.1.key ≠ k) :
    t.currentState k = s.currentState k := by
  rw [h.state]
  apply foldl_note_other
  intro e he
  obtain ⟨reg, hreg, hoverlaps, rfl⟩ := mem_reread.mp he
  exact hk reg hreg hoverlaps

/-- The registers reported become known. -/
theorem Noted.mem_known (h : s.Noted eq slave t type address size) (hslave : slave.WellFormed)
    {type' : RegisterType} {k : Bytes} : (type', k) ∈ t.known ↔ (type', k) ∈ s.known ∨
      type' = type ∧ ∃ reg ∈ slave.sorted type, reg.1.key = k ∧ reg.1.Overlaps address size ∧
        eq (s.currentState k) (server.valueOf t.server type reg.1) = false := by
  rw [h.known, List.mem_append, List.mem_map]
  refine or_congr_right ⟨?_, ?_⟩
  · rintro ⟨e, he, hpair⟩
    obtain ⟨rfl, rfl⟩ := Prod.mk.inj hpair
    obtain ⟨hmem, hne⟩ := (mem_changes_iff_of_nodup (reread_keys hslave t.server size)).mp he
    obtain ⟨reg, hreg, hoverlaps, rfl⟩ := mem_reread.mp hmem
    exact ⟨rfl, reg, hreg, rfl, hoverlaps, hne⟩
  · rintro ⟨rfl, reg, hreg, rfl, hoverlaps, hne⟩
    obtain ⟨e, he, hkey⟩ := List.mem_map.mp
      ((reported_iff hslave hreg s.currentState).mpr ⟨hoverlaps, hne⟩)
    exact ⟨e, he, by rw [hkey]⟩

/-- An overlapped register is remembered as it is now. -/
theorem Faithful.stands_overlapped
    (heq : ∀ v w, v.IsRegisterValue → w.IsRegisterValue → eq v w = v.equals qt w)
    (hslave : slave.WellFormed) (hs : s.Faithful eq slave)
    (h : s.Noted eq slave t type address size) {reg : TypedRegister}
    (hreg : reg ∈ slave.sorted type) (hoverlaps : reg.1.Overlaps address size)
    (howns : s.Owns type reg.1.key)
    (hnan : (server.valueOf t.server type reg.1).isNaN = false) :
    StandsFor eq reg.1 (t.currentState reg.1.key) (server.valueOf t.server type reg.1) := by
  rw [h.state_overlapped hslave hreg hoverlaps]
  by_cases hequal : eq (s.currentState reg.1.key) (server.valueOf t.server type reg.1) = true
  · -- what is remembered stands for the old value, which is the same number
    rw [note_of_eq hequal]
    have hold : (type, reg.1.key) ∈ s.known := by
      by_contra hunknown
      rw [QModbusServer.valueOf, hs.eq_of_unknown heq howns hunknown] at hequal
      cases hequal
    have hstands := (hs.known type reg hreg hold).2
    intro first second
    rw [← hstands.valueOf.mp hequal]
    exact hstands first second
  · rw [note_of_ne (Bool.eq_false_iff.mpr hequal), Function.update_self]
    exact standsFor_self heq hnan

/-- What is remembered under a key belongs to a known register. -/
theorem Faithful.noted_of_noted (hslave : slave.WellFormed) (hs : s.Faithful eq slave)
    (h : s.Noted eq slave t type address size) (k : Bytes) :
    t.currentState k = .invalid ∨ ∃ type, (type, k) ∈ t.known := by
  have hkeep (hsame : t.currentState k = s.currentState k) :
      t.currentState k = .invalid ∨ ∃ type, (type, k) ∈ t.known := by
    rw [hsame]
    exact (hs.noted k).imp_right fun ⟨type', hknown⟩ =>
      ⟨type', (h.mem_known hslave).mpr (Or.inl hknown)⟩
  by_cases hover : ∃ reg ∈ slave.sorted type, reg.1.Overlaps address size ∧ reg.1.key = k
  · obtain ⟨reg, hreg, hoverlaps, rfl⟩ := hover
    by_cases hequal : eq (s.currentState reg.1.key) (server.valueOf t.server type reg.1) = true
    · apply hkeep
      rw [h.state_overlapped hslave hreg hoverlaps, note_of_eq hequal]
    · right
      refine ⟨type, (h.mem_known hslave).mpr (Or.inr ⟨rfl, reg, hreg, rfl, hoverlaps, ?_⟩)⟩
      exact Bool.eq_false_iff.mpr hequal
  · apply hkeep
    exact h.state_other fun reg hreg hoverlaps hkey => hover ⟨reg, hreg, hoverlaps, hkey⟩

end Noted

/-- After a good write the values are remembered again. -/
theorem Faithful.write
    (heq : ∀ v w, v.IsRegisterValue → w.IsRegisterValue → eq v w = v.equals qt w)
    (hslave : slave.WellFormed) (hs : s.Faithful eq slave)
    (hgood : s.Good qt eq slave (.written type address values)) {t : Slaving server}
    {diff : FlatMap} (h : s.write eq slave type address values = some (t, diff)) :
    t.Faithful eq slave := by
  rcases write_cases eq hslave s type address values with
    ⟨u, hwrite, hdata⟩ | ⟨t', hset, hwrite, hnoted⟩
  · cases h.symm.trans hwrite
    refine ⟨?_, hs.noted⟩
    intro type' reg hreg hknown
    have hsame : server.valueOf u type' reg.1 = server.valueOf s.server type' reg.1 := by
      simp only [QModbusServer.valueOf, QModbusServer.wordsOf, hdata]
    rw [hsame]
    exact hs.known type' reg hreg hknown
  cases h.symm.trans hwrite
  refine ⟨?_, hs.noted_of_noted hslave hnoted⟩
  intro type' reg hreg hknown
  by_cases hcase : type' = type ∧ reg.1.Overlaps address values.length
  · obtain ⟨rfl, hoverlaps⟩ := hcase
    have hreg' := hgood reg hreg hoverlaps
    exact ⟨hreg'.addressable, hs.stands_overlapped heq hslave hnoted hreg hoverlaps hreg'.owns
      (hreg'.noNaN t.server true hset)⟩
  · -- no overlapped register of the table has the key
    have hapart : type' = type → ∀ reg' ∈ slave.sorted type,
        reg'.1.Overlaps address values.length → reg'.1.key ≠ reg.1.key := by
      rintro rfl reg' hreg' hoverlaps hkey
      obtain rfl := List.inj_on_of_nodup_map (hslave.sorted_keys type') hreg' hreg hkey
      exact hcase ⟨rfl, hoverlaps⟩
    have hold : (type', reg.1.key) ∈ s.known := by
      rcases (hnoted.mem_known hslave).mp hknown with hold | ⟨htype, reg', hreg', hkey, hover, -⟩
      · exact hold
      · exact absurd hkey (hapart htype reg' hreg' hover)
    obtain ⟨haddress, hstands⟩ := hs.known type' reg hreg hold
    have hkeep : t.currentState reg.1.key = s.currentState reg.1.key := by
      apply hnoted.state_other
      intro reg' hreg' hoverlaps hkey
      have htype := (hgood reg' hreg' hoverlaps).owns type' (by rw [hkey]; exact hold)
      exact hapart htype reg' hreg' hoverlaps hkey
    rw [hkeep, valueOf_other hset haddress (not_and_or.mp hcase)]
    exact ⟨haddress, hstands⟩

/-- Every good step keeps the values remembered. -/
theorem Faithful.step
    (heq : ∀ v w, v.IsRegisterValue → w.IsRegisterValue → eq v w = v.equals qt w)
    (hslave : slave.WellFormed) (hs : s.Faithful eq slave) {a : SlaveAction}
    (hgood : s.Good qt eq slave a) {t : Slaving server} (h : s.step qt eq slave a = some t) :
    t.Faithful eq slave := by
  cases a with
  | entry k v =>
    obtain rfl := Option.some.inj h
    exact hs.set hslave hgood
  | written type address values =>
    obtain ⟨⟨t', diff⟩, hwrite, rfl⟩ := Option.map_eq_some_iff.mp h
    exact hs.write heq hslave hgood hwrite

/-- Nothing is remembered at the start. -/
theorem faithful_start (eq : Scalar → Scalar → Bool) (slave : Slave) (server : QModbusServer) :
    (slave.start server).Faithful eq slave where
  known := by
    intro type reg hreg hknown
    cases hknown
  noted := fun _ => Or.inl rfl

end Steps

/-- In a run whose steps meet the condition, every write of a client makes the slave report what it
changes. -/
theorem reportsChanges_of_run {qt : Conversions} {eq : Scalar → Scalar → Bool}
    (heq : ∀ v w, v.IsRegisterValue → w.IsRegisterValue → eq v w = v.equals qt w)
    {server : QModbusServer} {registers : RegistersMap Register} {slave : Slave}
    (hslave : prepareSlave registers = .ok slave) {actions : List SlaveAction}
    (hgood : Along (step qt eq slave) (Good qt eq slave) (slave.start server) actions)
    {done : List SlaveAction} {type : RegisterType} {address : ℤ} {values : List Word}
    (hdone : done ++ [.written type address values] <+: actions) {s : Slaving server}
    (hrun : run (step qt eq slave) (slave.start server) done = some s) :
    s.ReportsChanges eq slave type address values := by
  have hwell := wellFormed_of_prepareSlave hslave
  have hprefix : done <+: actions := (List.prefix_append done _).trans hdone
  have hs : s.Faithful eq slave :=
    run_invariant (fun hs hgood hstep => hs.step heq hwell hgood hstep)
      (faithful_start eq slave server) hgood hprefix hrun
  exact hs.reportsChanges heq hwell (good_of_along hgood hdone hrun)

/-- Two registers of one table, `x` and `y`. -/
def twoRegisters : SingleTypeMap Register :=
  ⟨[([120], { index := 0 }), ([121], { index := 1 })], by decide⟩

/-- A slave with two holding registers. -/
def holdingPair : RegistersMap Register :=
  { di := noRegisters, holding := twoRegisters, input := noRegisters, coils := noRegisters }

/-- A slave with two coils. -/
def coilPair : RegistersMap Register :=
  { di := noRegisters, holding := noRegisters, input := noRegisters, coils := twoRegisters }

/-- The holding register `x` as a message finds it. -/
def holdingX : PreparedWriteRegister :=
  preparedWrite .HoldingRegisters [120] (Register.asWords { index := 0 })

/-- What the constructor makes of the two holding registers. -/
def holdingSlave : Slave where
  all := Function.update (Function.update (fun _ => none) [120] (some holdingX)) [121]
    (some (preparedWrite .HoldingRegisters [121] (Register.asWords { index := 1 })))
  sorted := fun
    | .HoldingRegisters =>
        [prepared [120] (Register.asWords { index := 0 }),
          prepared [121] (Register.asWords { index := 1 })]
    | .Coils => []
    | .DiscreteInputs => []
    | .InputRegisters => []
    | .Invalid => []

/-- A message sets `x` to 5, and a client writes both registers and changes `y` alone. -/
theorem reportsChanges_holdingPair : ∃ s, prepareSlave holdingPair = .ok holdingSlave ∧
    run (step integersOnly (Scalar.equals integersOnly) holdingSlave)
      (holdingSlave.start mapServer) [.entry [120] (.int 5)] = some s ∧
    s.ReportsChanges (Scalar.equals integersOnly) holdingSlave .HoldingRegisters 0 [5, 7] := by
  have hgood : Along (step integersOnly (Scalar.equals integersOnly) holdingSlave)
      (Good integersOnly (Scalar.equals integersOnly) holdingSlave)
      (holdingSlave.start mapServer)
      [.entry [120] (.int 5), .written .HoldingRegisters 0 [5, 7]] := by
    refine ⟨?_, ?_⟩
    · intro reg unit haccept _
      have hfound : some (holdingX, unitOf .HoldingRegisters 0 [5]) =
          some (reg, unit) := haccept
      cases hfound
      refine ⟨⟨by decide, by decide⟩, nofun, ?_, nofun⟩
      have hvalue : Scalar.int 5 = decoded holdingX.toPreparedRegister (5, 0) := rfl
      rw [hvalue]
      exact standsFor_self (fun _ _ _ _ => rfl) rfl
    · intro s hs
      have howns (k : Bytes) : s.Owns .HoldingRegisters k := by
        intro type' hmem
        obtain rfl := Option.some.inj hs
        exact (Prod.mk.inj (List.mem_singleton.mp hmem)).1
      refine ⟨?_, fun _ _ => trivial⟩
      intro reg hreg _
      rcases List.mem_cons.mp hreg with rfl | hreg
      · exact ⟨⟨by decide, by decide⟩, howns _, fun _ _ _ => decoded_isNaN (by decide) _⟩
      · obtain rfl := List.mem_singleton.mp hreg
        exact ⟨⟨by decide, by decide⟩, howns _, fun _ _ _ => decoded_isNaN (by decide) _⟩
  obtain ⟨s, hrun⟩ : ∃ s, run (step integersOnly (Scalar.equals integersOnly) holdingSlave)
      (holdingSlave.start mapServer) [.entry [120] (.int 5)] = some s := ⟨_, rfl⟩
  have hslave : prepareSlave holdingPair = .ok holdingSlave := rfl
  refine ⟨s, hslave, hrun, ?_⟩
  exact reportsChanges_of_run (fun _ _ _ _ => rfl) hslave hgood (List.prefix_refl _) hrun

/-- What the constructor makes of the two coils. -/
def coilSlave : Slave where
  all := Function.update (Function.update (fun _ => none)
    [120] (some (preparedWrite .Coils [120] (Register.asBit { index := 0 } .defaultMode))))
    [121] (some (preparedWrite .Coils [121] (Register.asBit { index := 1 } .defaultMode)))
  sorted := fun
    | .HoldingRegisters => []
    | .Coils =>
        [prepared [120] (Register.asBit { index := 0 } .defaultMode),
          prepared [121] (Register.asBit { index := 1 } .defaultMode)]
    | .DiscreteInputs => []
    | .InputRegisters => []
    | .Invalid => []

/-- A message sets the coil `x` to 5. The coil is on, but 5 is remembered; so a write that leaves it
on and changes `y` reports `x`. -/
theorem not_reportsChanges_coil :
    ¬ ∀ (qt : Conversions) (eq : Scalar → Scalar → Bool) (server : QModbusServer)
      (registers : RegistersMap Register) (slave : Slave) (done : List SlaveAction)
      (s : Slaving server) (type : RegisterType) (address : ℤ) (values : List Word),
      (∀ v w, v.IsRegisterValue → w.IsRegisterValue → eq v w = v.equals qt w) →
      prepareSlave registers = .ok slave →
      run (step qt eq slave) (slave.start server) done = some s →
        s.ReportsChanges eq slave type address values := by
  intro h
  obtain ⟨s, hrun⟩ : ∃ s, run (step integersOnly (Scalar.equals integersOnly) coilSlave)
      (coilSlave.start mapServer) [.entry [120] (.int 5)] = some s := ⟨_, rfl⟩
  obtain ⟨t, diff, hwrite, hall⟩ := h integersOnly (Scalar.equals integersOnly) mapServer coilPair
    coilSlave [.entry [120] (.int 5)] s .Coils 0 [1, 1] (fun _ _ _ _ => rfl) rfl hrun
  obtain rfl := Option.some.inj hrun
  obtain ⟨rfl, rfl⟩ := Prod.mk.inj (Option.some.inj hwrite)
  obtain ⟨-, hchanged | hunknown⟩ := (hall _ List.mem_cons_self).1 (by decide)
  · exact hchanged rfl
  · exact hunknown (by decide)

end Slaving

end Radapter.Modbus
