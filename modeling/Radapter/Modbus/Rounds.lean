import Radapter.Library.Changes
import Radapter.Library.Runs
import Radapter.Modbus.Prepare

/-!
# Poll rounds

A master reports a register when its value differs from the one it keeps under the register's key.
The keys of one table are different, but two tables may have the same key, and so may two queries.
This file has what a sequence of polls reports when the device's contents never change, whatever
memory each call of `parsePoll` finds in its array.
-/

namespace Radapter.Modbus

open Library

/-! ## The values of a response -/

/-- The value that `decodeRegister` returns. -/
def decoded (reg : PreparedRegister) (data : Words) : Scalar :=
  ((decodeRegister reg data).map Prod.fst).getD .invalid

/-- The registers of a response and their values, in the order of the loop of `parsePoll`. -/
def readings (resp : QModbusDataUnit) : Words → List PreparedRegister → List (Bytes × Scalar)
  | _, [] => []
  | data, reg :: rest =>
      let words := loadWords resp reg data
      (reg.key, decoded reg words) :: readings resp (swapWords reg.packing words) rest

/-- A response is read register by register. -/
theorem readings_keys (resp : QModbusDataUnit) (data : Words) (regs : List PreparedRegister) :
    (readings resp data regs).map Prod.fst = regs.map PreparedRegister.key := by
  induction regs generalizing data with
  | nil => rfl
  | cons reg rest ih => rw [readings, List.map_cons, List.map_cons, ih]

/-- A register with a type always decodes. -/
theorem decodeRegister_eq {reg : PreparedRegister} (htype : reg.type ≠ .defaultValueType)
    (data : Words) :
    decodeRegister reg data = some (decoded reg data, swapWords reg.packing data) := by
  obtain ⟨v, hv⟩ := decodeRegister_data htype data
  rw [decoded, hv]
  rfl

/-- It decodes to a value. -/
theorem decoded_ne_invalid {reg : PreparedRegister} (htype : reg.type ≠ .defaultValueType)
    (data : Words) : decoded reg data ≠ .invalid := by
  unfold decoded decodeRegister
  cases h : reg.type with
  | defaultValueType => exact absurd h htype
  | _ => exact nofun

/-- So does every register of a response. -/
theorem readings_ne_invalid {resp : QModbusDataUnit} {data : Words} {regs : List PreparedRegister}
    (htyped : ∀ reg ∈ regs, reg.type ≠ .defaultValueType) {e : Bytes × Scalar}
    (he : e ∈ readings resp data regs) : e.2 ≠ .invalid := by
  induction regs generalizing data with
  | nil => cases he
  | cons reg rest ih =>
    obtain ⟨hreg, hrest⟩ := List.forall_mem_cons.mp htyped
    rcases List.mem_cons.mp he with rfl | he
    · exact decoded_ne_invalid hreg _
    · exact ih hrest he

/-- The loop notes the values of the response and collects those that are changes. -/
theorem pollLoop_eq (qt : Conversions) (resp : QModbusDataUnit) {regs : List PreparedRegister}
    (htyped : ∀ reg ∈ regs, reg.type ≠ .defaultValueType) (s : Poll) :
    ∃ data, pollLoop qt resp regs s = some {
      data := data
      currentState := (readings resp s.data regs).foldl (note (Scalar.equals qt)) s.currentState
      diff := s.diff ++ (changes (Scalar.equals qt) s.currentState
        (readings resp s.data regs)).map (fun e => (e.1, .leaf e.2)) } := by
  induction regs generalizing s with
  | nil => exact ⟨s.data, by simp [pollLoop, readings, changes]⟩
  | cons reg rest ih =>
    obtain ⟨hreg, hrest⟩ := List.forall_mem_cons.mp htyped
    have hdecode := decodeRegister_eq hreg (loadWords resp reg s.data)
    simp only [pollLoop, pollRegister, hdecode, Option.bind_eq_bind, Option.bind_some, readings,
      changes, List.foldl_cons]
    by_cases heq : (s.currentState reg.key).equals qt
        (decoded reg (loadWords resp reg s.data)) = true
    · rw [if_pos heq, if_pos heq, note_of_eq heq]
      exact ih hrest _
    · obtain ⟨data, hloop⟩ := ih hrest
        { data := swapWords reg.packing (loadWords resp reg s.data)
          currentState := Function.update s.currentState reg.key
            (decoded reg (loadWords resp reg s.data))
          diff := s.diff ++ [(reg.key, .leaf (decoded reg (loadWords resp reg s.data)))] }
      refine ⟨data, ?_⟩
      rw [if_neg heq, if_neg heq, note_of_ne (Bool.eq_false_iff.mpr heq)]
      simpa using hloop

/-- `parsePoll` notes the values and sends a message if there are changes. -/
theorem parsePoll_eq (qt : Conversions) (read : MergedRead) (resp : QModbusDataUnit)
    (memory : Words) (currentState : Bytes → Scalar) :
    ∃ sent, parsePoll qt read resp memory currentState =
        some ((readings resp memory read.regs).foldl (note (Scalar.equals qt)) currentState, sent) ∧
      (sent = none ↔
        changes (Scalar.equals qt) currentState (readings resp memory read.regs) = []) := by
  obtain ⟨data, hloop⟩ := pollLoop_eq qt resp read.typed
    { data := memory, currentState := currentState }
  simp only [parsePoll, hloop, Option.bind_eq_bind, Option.bind_some, List.nil_append,
    List.map_eq_nil_iff]
  refine ⟨_, rfl, ?_⟩
  split_ifs with hnil
  · simp [hnil]
  · simp [hnil]

/-! ## Memory -/

/-- Whether a read decodes the place of the array that nothing has been loaded into: it has a
one-word register with `word = big`, and no register with two words before it. -/
def readsMemory : List PreparedRegister → Bool
  | [] => false
  | reg :: rest =>
      if reg.sizeOf = 4 then false
      else if reg.packing.word ≠ .little then true
      else readsMemory rest

/-- A register of another size than two words has one. -/
theorem sizeOf_eq_two_of_ne {reg : PreparedRegister} (h : reg.sizeOf ≠ 4) : reg.sizeOf = 2 := by
  have hsized := reg.sized
  cases htype : reg.type <;> simp_all [getSizeOf]

/-- A register of one word is decoded from the first place after the swap alone. -/
theorem decoded_congr {reg : PreparedRegister} (hsize : reg.sizeOf ≠ 4) {data other : Words}
    (h : (swapWords reg.packing data).1 = (swapWords reg.packing other).1) :
    decoded reg data = decoded reg other := by
  rw [decoded, decoded, decodeRegister_oneWord_congr (sizeOf_eq_two_of_ne hsize) h]

/-- The values of other reads are those of the response alone. -/
theorem readings_congr {resp : QModbusDataUnit} {regs : List PreparedRegister}
    (h : readsMemory regs = false) (data other : Words) :
    readings resp data regs = readings resp other regs := by
  induction regs generalizing data other with
  | nil => rfl
  | cons reg rest ih =>
    rw [readsMemory] at h
    split_ifs at h with hsize hword
    · -- both places are loaded
      simp only [readings, loadWords, if_pos hsize]
    · have hvalue : decoded reg (loadWords resp reg data) =
          decoded reg (loadWords resp reg other) := by
        apply decoded_congr hsize
        simp only [swapWords, hword, if_false, loadWords]
      rw [readings, readings, hvalue, ih h]

/-- A read that decodes the place has a value that depends on the memory. -/
theorem exists_differing_of_readsMemory (qt : Conversions) (resp : QModbusDataUnit)
    {regs : List PreparedRegister} (htyped : ∀ reg ∈ regs, reg.type ≠ .defaultValueType)
    (h : readsMemory regs = true) (first other : Word) :
    ∃ k v w, (k, v) ∈ readings resp (first, 0) regs ∧ (k, w) ∈ readings resp (other, 1) regs ∧
      v.equals qt w = false := by
  induction regs generalizing first other with
  | nil => cases h
  | cons reg rest ih =>
    obtain ⟨hreg, hrest⟩ := List.forall_mem_cons.mp htyped
    rw [readsMemory] at h
    split_ifs at h with hsize hword
    · refine ⟨reg.key, _, _, List.mem_cons_self, List.mem_cons_self, ?_⟩
      have hsized := reg.sized
      simp only [loadWords, if_neg hsize]
      cases htype : reg.type with
      | defaultValueType => exact absurd htype hreg
      | bit =>
        simp [decoded, decodeRegister, htype, swapWords, hword, Scalar.equals, Scalar.wordBits]
      | uint16 =>
        simp only [decoded, decodeRegister, htype, swapWords, ne_eq, hword, not_false_eq_true,
          if_true, parseWords16]
        cases reg.packing.byte <;> rfl
      | uint32 => simp [htype, getSizeOf, hsized] at hsize
      | float32 => simp [htype, getSizeOf, hsized] at hsize
    · obtain ⟨k, v, w, hv, hw, hne⟩ := ih hrest h
        (swapWords reg.packing (loadWords resp reg (first, 0))).1
        (swapWords reg.packing (loadWords resp reg (other, 1))).1
      have hlittle : reg.packing.word = .little := not_not.mp hword
      refine ⟨k, v, w, List.mem_cons_of_mem _ ?_, List.mem_cons_of_mem _ ?_, hne⟩
      · simpa [swapWords, hlittle, loadWords, hsize] using hv
      · simpa [swapWords, hlittle, loadWords, hsize] using hw

/-! ## Rounds -/

/-- What a device holds. -/
abbrev Contents := RegisterType → ℤ → Word

/-- The response of the device to a request. -/
def Contents.answer (contents : Contents) (unit : QModbusDataUnit) : QModbusDataUnit :=
  { unit with
    values := (List.range unit.valueCount).map
      (fun (i : ℕ) => contents unit.registerType (unit.startAddress + i)) }

/-- The registers of an answered read and their values. -/
def Contents.entries (contents : Contents) (x : MergedRead × Words) : List (Bytes × Scalar) :=
  readings (contents.answer x.1.unit) x.2 x.1.regs

/-- The state of a master's polls and the messages sent. -/
structure Polling where
  currentState : Bytes → Scalar := fun _ => .invalid
  sent : List QVariant := []

/-- A read is answered; its array starts with the given memory. -/
def Polling.answered (qt : Conversions) (contents : Contents) (s : Polling)
    (x : MergedRead × Words) : Option Polling := do
  let (currentState, sent) ←
    parsePoll qt x.1 (contents.answer x.1.unit) x.2 s.currentState
  return { currentState := currentState, sent := s.sent ++ sent.toList }

/-- Once every read has been answered, full rounds send nothing. -/
def QuietRounds (qt : Conversions) (contents : Contents) (reads : List MergedRead) : Prop :=
  ∀ (first rounds : List (MergedRead × Words)) (n : ℕ),
    (∀ x ∈ first, x.1 ∈ reads) → (∀ read ∈ reads, ∃ x ∈ first, x.1 = read) →
    rounds.map Prod.fst = (List.replicate n reads).flatten →
    ∃ s t, run (Polling.answered qt contents) {} first = some s ∧
      run (Polling.answered qt contents) s rounds = some t ∧ t.sent = s.sent

/-- No register holds a NaN. -/
def Contents.NoNaN (contents : Contents) (reads : List MergedRead) : Prop :=
  ∀ read ∈ reads, ∀ e ∈ contents.entries (read, (0, 0)), e.2.isNaN = false

instance (contents : Contents) (reads : List MergedRead) : Decidable (contents.NoNaN reads) :=
  inferInstanceAs (Decidable (∀ read ∈ reads, _))

/-- Registers with one key have equal values, whichever reads they are in. -/
def KeysAgree (qt : Conversions) (contents : Contents) (reads : List MergedRead) : Prop :=
  ∀ read ∈ reads, ∀ read' ∈ reads, ∀ e ∈ contents.entries (read, (0, 0)),
    ∀ e' ∈ contents.entries (read', (0, 0)), e.1 = e'.1 → e.2.equals qt e'.2 = true

instance (qt : Conversions) (contents : Contents) (reads : List MergedRead) :
    Decidable (KeysAgree qt contents reads) :=
  inferInstanceAs (Decidable (∀ read ∈ reads, _))

variable {qt : Conversions} {contents : Contents}

/-- Answers in turn: their values are noted, and messages are sent if there are changes. -/
theorem run_answered (qt : Conversions) (contents : Contents) (s : Polling)
    (xs : List (MergedRead × Words)) :
    ∃ t more, run (Polling.answered qt contents) s xs = some t ∧
      t.currentState =
        (xs.flatMap contents.entries).foldl (note (Scalar.equals qt)) s.currentState ∧
      t.sent = s.sent ++ more ∧
      (more = [] ↔
        changes (Scalar.equals qt) s.currentState (xs.flatMap contents.entries) = []) := by
  induction xs generalizing s with
  | nil => exact ⟨s, [], rfl, rfl, by simp, by simp [changes]⟩
  | cons x rest ih =>
    obtain ⟨sent, hparse, hsent⟩ :=
      parsePoll_eq qt x.1 (contents.answer x.1.unit) x.2 s.currentState
    have hstep : Polling.answered qt contents s x = some
        { currentState := (contents.entries x).foldl (note (Scalar.equals qt)) s.currentState
          sent := s.sent ++ sent.toList } := by
      simp only [Polling.answered, hparse, Option.bind_eq_bind, Option.bind_some]
      rfl
    obtain ⟨t, more, hrun, hstate, hmore, hnil⟩ := ih
      { currentState := (contents.entries x).foldl (note (Scalar.equals qt)) s.currentState
        sent := s.sent ++ sent.toList }
    refine ⟨t, sent.toList ++ more, ?_, ?_, ?_, ?_⟩
    · rw [run, hstep]
      exact hrun
    · rw [List.flatMap_cons, List.foldl_append]
      exact hstate
    · rw [hmore, List.append_assoc]
    · rw [List.flatMap_cons, changes_append, List.append_eq_nil_iff, List.append_eq_nil_iff, hnil]
      apply and_congr_left'
      rw [Contents.entries, ← hsent]
      cases sent <;> simp

/-- The registers of an answered read all have values. -/
theorem entries_ne_invalid {x : MergedRead × Words} {e : Bytes × Scalar}
    (he : e ∈ contents.entries x) : e.2 ≠ .invalid := readings_ne_invalid x.1.typed he

/-- Rounds that send nothing have no changes. -/
theorem QuietRounds.changes_eq_nil {reads : List MergedRead}
    (h : QuietRounds qt contents reads) (first rounds : List (MergedRead × Words)) (n : ℕ)
    (hreads : ∀ x ∈ first, x.1 ∈ reads) (hall : ∀ read ∈ reads, ∃ x ∈ first, x.1 = read)
    (hrounds : rounds.map Prod.fst = (List.replicate n reads).flatten) :
    changes (Scalar.equals qt)
      ((first.flatMap contents.entries).foldl (note (Scalar.equals qt)) (fun _ => .invalid))
      (rounds.flatMap contents.entries) = [] := by
  obtain ⟨s, t, hs, ht, hsent⟩ := h first rounds n hreads hall hrounds
  obtain ⟨s', -, hs', hstate, -⟩ := run_answered qt contents {} first
  obtain rfl := Option.some.inj (hs.symm.trans hs')
  obtain ⟨t', more, ht', -, hmore, hnil⟩ := run_answered qt contents s rounds
  obtain rfl := Option.some.inj (ht.symm.trans ht')
  rw [← hstate]
  apply hnil.mp
  rw [hsent] at hmore
  simpa using hmore

/-- In quiet rounds two registers with one key have equal values, whatever the memory is. -/
theorem QuietRounds.agree {reads : List MergedRead} (h : QuietRounds qt contents reads)
    (hdistinct : ∀ read ∈ reads, read.Distinct) {read read' : MergedRead} (hread : read ∈ reads)
    (hread' : read' ∈ reads) {memory memory' : Words} {e e' : Bytes × Scalar}
    (he : e ∈ contents.entries (read, memory)) (he' : e' ∈ contents.entries (read', memory'))
    (hkey : e.1 = e'.1) : e.2.equals qt e'.2 = true := by
  by_contra hne
  -- the values that two rounds with the two memories have
  let rounds := reads.map (·, memory) ++ reads.map (·, memory')
  let values : Bytes × Scalar → Prop := fun e => e ∈ rounds.flatMap contents.entries
  have hmem : ∀ {r}, r ∈ reads → ∀ v ∈ contents.entries (r, memory), values v := by
    intro r hr v hv
    exact List.mem_flatMap.mpr ⟨(r, memory), by simp [rounds, hr], hv⟩
  have hmem' : values e' := List.mem_flatMap.mpr ⟨(read', memory'), by simp [rounds, hread'], he'⟩
  -- the first register is answered first
  have hstart : (contents.entries (read, memory)).foldl (note (Scalar.equals qt))
      (fun _ => .invalid) e.1 = e.2 := by
    rw [foldl_note_of_nodup _ he, note_of_ne (Scalar.invalid_equals qt (entries_ne_invalid he)),
      Function.update_self]
    rw [Contents.entries, readings_keys]
    exact hdistinct read hread
  have hrestless : Restless (Scalar.equals qt) values
      ((contents.entries (read, memory)).foldl (note (Scalar.equals qt)) (fun _ => .invalid)) := by
    refine ⟨e.1, e'.2, ?_, ?_, ?_⟩
    · rw [hstart]
      exact hmem hread e he
    · rw [hkey]
      exact hmem'
    · rw [hstart]
      exact Bool.eq_false_iff.mpr hne
  have hquiet := h.changes_eq_nil ((read, memory) :: reads.map (·, memory)) rounds 2
    (by simp [hread]) (fun r hr => ⟨(r, memory), by simp [hr], rfl⟩)
    (by simp [rounds, List.replicate, Function.comp_def])
  rw [List.flatMap_cons, List.foldl_append] at hquiet
  refine (hrestless.foldl_note (Scalar.equals_comm qt) ?_).changes_ne_nil (fun _ hv => hv) hquiet
  intro v hv
  obtain ⟨x, hx, hv⟩ := List.mem_flatMap.mp hv
  obtain ⟨r, hr, rfl⟩ := List.mem_map.mp hx
  exact hmem hr v hv

/-- Every read of some rounds is one of the reads of a round. -/
theorem mem_reads_of_rounds {reads : List MergedRead} {rounds : List (MergedRead × Words)} {n : ℕ}
    (hrounds : rounds.map Prod.fst = (List.replicate n reads).flatten) {x : MergedRead × Words}
    (hx : x ∈ rounds) : x.1 ∈ reads := by
  have hmem : x.1 ∈ rounds.map Prod.fst := List.mem_map_of_mem hx
  rw [hrounds, List.mem_flatten] at hmem
  obtain ⟨l, hl, hmem⟩ := hmem
  rwa [List.eq_of_mem_replicate hl] at hmem

/-- Where no memory is read, the values do not depend on what the array held before. -/
theorem entries_congr {x : MergedRead × Words} (h : readsMemory x.1.regs = false) :
    contents.entries x = contents.entries (x.1, (0, 0)) :=
  readings_congr h x.2 (0, 0)

/-- Once every read has been answered there are no changes, if no value depends on the memory and
registers with one key agree. -/
theorem KeysAgree.changes_eq_nil {reads : List MergedRead} (hagree : KeysAgree qt contents reads)
    (hmemory : ∀ read ∈ reads, readsMemory read.regs = false)
    {first rounds : List (MergedRead × Words)} (hreads : ∀ x ∈ first, x.1 ∈ reads)
    (hall : ∀ read ∈ reads, ∃ x ∈ first, x.1 = read) (hrounds : ∀ x ∈ rounds, x.1 ∈ reads) :
    changes (Scalar.equals qt)
      ((first.flatMap contents.entries).foldl (note (Scalar.equals qt)) (fun _ => .invalid))
      (rounds.flatMap contents.entries) = [] := by
  let values : Bytes × Scalar → Prop := fun e =>
    ∃ read ∈ reads, e ∈ contents.entries (read, (0, 0))
  have hvalues : ∀ {x : MergedRead × Words}, x.1 ∈ reads → ∀ e ∈ contents.entries x, values e := by
    intro x hx e he
    exact ⟨x.1, hx, by rwa [← entries_congr (hmemory x.1 hx)]⟩
  have habsent : ∀ e, values e → Scalar.invalid.equals qt e.2 = false := by
    rintro e ⟨read, -, he⟩
    exact Scalar.invalid_equals qt (entries_ne_invalid he)
  have hequal : ∀ e e', values e → values e' → e.1 = e'.1 → e.2.equals qt e'.2 = true := by
    rintro e e' ⟨read, hread, he⟩ ⟨read', hread', he'⟩ hkey
    exact hagree read hread read' hread' e he e' he' hkey
  apply changes_eq_nil_of_noted habsent hequal
  · intro e he
    obtain ⟨x, hx, he⟩ := List.mem_flatMap.mp he
    exact hvalues (hreads x hx) e he
  · intro e he
    obtain ⟨x, hx, he⟩ := List.mem_flatMap.mp he
    have hread := hrounds x hx
    refine ⟨hvalues hread e he, ?_⟩
    -- its read has been answered before, with the same values
    obtain ⟨y, hy, hyx⟩ := hall x.1 hread
    refine ⟨e, List.mem_flatMap.mpr ⟨y, hy, ?_⟩, rfl⟩
    rw [entries_congr (hmemory x.1 hread), ← hyx] at he
    rwa [entries_congr (hmemory y.1 (hreads y hy))]

/-- Rounds are quiet if no value depends on the memory and registers with one key agree. -/
theorem quietRounds_of_agree {reads : List MergedRead}
    (hmemory : ∀ read ∈ reads, readsMemory read.regs = false)
    (hagree : KeysAgree qt contents reads) : QuietRounds qt contents reads := by
  intro first rounds n hreads hall hrounds
  obtain ⟨s, -, hs, hstate, -⟩ := run_answered qt contents {} first
  obtain ⟨t, more, ht, -, hmore, hnil⟩ := run_answered qt contents s rounds
  refine ⟨s, t, hs, ht, ?_⟩
  have hquiet := hagree.changes_eq_nil hmemory hreads hall
    (fun x hx => mem_reads_of_rounds hrounds hx)
  rw [hmore, hnil.mpr (hstate ▸ hquiet), List.append_nil]

/-- The exact condition: no read decodes memory that it has not loaded, and the registers that are
read under one key have equal values. -/
theorem quietRounds_iff (qt : Conversions) {config : MasterConfig} {reads : List MergedRead}
    {writable : Bytes → Option PreparedWriteRegister}
    (h : prepareMaster config = .ok (reads, writable)) (contents : Contents) :
    QuietRounds qt contents reads ↔
      (∀ read ∈ reads, readsMemory read.regs = false) ∧ KeysAgree qt contents reads := by
  have hdistinct := distinct_of_prepareMaster h
  constructor
  · intro hquiet
    refine ⟨?_, ?_⟩
    · intro read hread
      by_contra hmemory
      obtain ⟨k, v, w, hv, hw, hne⟩ := exists_differing_of_readsMemory qt
        (contents.answer read.unit) read.typed (Bool.not_eq_false _ ▸ hmemory) 0 0
      have heq : v.equals qt w = true := hquiet.agree hdistinct hread hread hv hw rfl
      rw [hne] at heq
      cases heq
    · intro read hread read' hread' e he e' he' hkey
      exact hquiet.agree hdistinct hread hread' he he' hkey
  · rintro ⟨hmemory, hagree⟩
    exact quietRounds_of_agree hmemory hagree

/-- A table with no registers. -/
def noRegisters : SingleTypeMap Register := ⟨[], by simp⟩

/-- A table with one register at address 0, under the key `x`. -/
def oneRegister : SingleTypeMap Register := ⟨[([120], { index := 0 })], by simp⟩

/-- A holding register and the coils given. -/
def smallConfig (coils : SingleTypeMap Register) : MasterConfig where
  registers := { di := noRegisters, holding := oneRegister, input := noRegisters, coils := coils }
  queries := none

/-- The read of that register from the holding registers. -/
def holdingRead : MergedRead where
  regs := [(prepared [120] (Register.asWords { index := 0 })).1]
  unit := { registerType := .HoldingRegisters, startAddress := 0, valueCount := 1 }
  typed := by decide

/-- The read of the register from the coils. -/
def coilRead : MergedRead where
  regs := [(prepared [120] (Register.asBit { index := 0 } .defaultMode)).1]
  unit := { registerType := .Coils, startAddress := 0, valueCount := 1 }
  typed := by decide

/-- A master with one register on a device that holds 5 everywhere. -/
theorem quietRounds_oneRegister : QuietRounds integersOnly (fun _ _ => 5) [holdingRead] := by
  obtain ⟨writable, hprepared⟩ : ∃ writable, prepareMaster (smallConfig noRegisters) =
      .ok ([holdingRead], writable) := ⟨_, rfl⟩
  exact (quietRounds_iff integersOnly hprepared (fun _ _ => 5)).mpr (by decide)

/-- A coil and a holding register under one key are reported in turn for ever. -/
theorem not_quietRounds_twoTables :
    ¬ ∀ (qt : Conversions) (config : MasterConfig) (reads : List MergedRead)
      (writable : Bytes → Option PreparedWriteRegister) (contents : Contents),
      prepareMaster config = .ok (reads, writable) → contents.NoNaN reads →
        QuietRounds qt contents reads := by
  intro h
  obtain ⟨writable, hprepared⟩ : ∃ writable, prepareMaster (smallConfig oneRegister) =
      .ok ([holdingRead, coilRead], writable) := ⟨_, rfl⟩
  have hquiet := h integersOnly _ _ _ (fun _ _ => 5) hprepared (by decide)
  have hholding : ([120], Scalar.int 5) ∈
      Contents.entries (fun _ _ => 5) (holdingRead, ((0, 0) : Words)) := by decide
  have hcoil : ([120], Scalar.bool true) ∈
      Contents.entries (fun _ _ => 5) (coilRead, ((0, 0) : Words)) := by decide
  have hequal : (Scalar.int 5).equals integersOnly (.bool true) = true :=
    hquiet.agree (distinct_of_prepareMaster hprepared) (by simp) (by simp) hholding hcoil rfl
  revert hequal
  decide

end Radapter.Modbus
