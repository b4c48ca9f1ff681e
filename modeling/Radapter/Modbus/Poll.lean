import Mathlib.Logic.Function.Basic
import Radapter.Modbus.Registers
import Radapter.Unflatten

/-!
# Parsing a poll response

`Master::parsePoll` decodes the registers of one merged read in turn. They share the array
`data[2]`, which starts uninitialised: a one-word register fills its first place only, and
`decodeRegister` swaps the places of a register with `word = big` and leaves them swapped. What
a register decodes to is followed here through the array, place by place.
-/

namespace Radapter.Modbus

/-- `QModbusDataUnit::RegisterType`. -/
inductive RegisterType where
  | Invalid
  | DiscreteInputs
  | Coils
  | InputRegisters
  | HoldingRegisters
  deriving DecidableEq, Repr

/-- `QModbusDataUnit`. -/
structure QModbusDataUnit where
  registerType : RegisterType := .Invalid
  startAddress : ℤ := -1
  valueCount : ℕ := 0
  values : List Word := []
  deriving DecidableEq

/-- `QModbusDataUnit::value`: zero beyond the values. -/
def QModbusDataUnit.value (unit : QModbusDataUnit) (i : ℤ) : Word :=
  if i < 0 then 0 else unit.values.getD i.toNat 0

/-- `MergedRead`. The registers come from a validated map, which leaves no default type. -/
structure MergedRead where
  regs : List PreparedRegister
  unit : QModbusDataUnit
  typed : ∀ reg ∈ regs, reg.type ≠ .defaultValueType

/-- What the loop of `parsePoll` works on; a key that was never set maps to null. -/
structure Poll where
  data : Words
  currentState : Bytes → Scalar
  diff : FlatMap := []

/-- The words a register loads before it is decoded. -/
def loadWords (resp : QModbusDataUnit) (reg : PreparedRegister) (data : Words) : Words :=
  (resp.value (reg.index - resp.startAddress),
    if reg.sizeOf = 4 then resp.value (reg.index + 1 - resp.startAddress) else data.2)

/-- One round of the loop; `none` when the program aborts. -/
def pollRegister (qt : Conversions) (resp : QModbusDataUnit) (s : Poll)
    (reg : PreparedRegister) : Option Poll := do
  let (asVariant, data) ← decodeRegister reg (loadWords resp reg s.data)
  if (s.currentState reg.key).equals qt asVariant then
    return { s with data := data }
  else
    return { data := data
             currentState := Function.update s.currentState reg.key asVariant
             diff := s.diff ++ [(reg.key, .leaf asVariant)] }

/-- The loop over the registers of a read. -/
def pollLoop (qt : Conversions) (resp : QModbusDataUnit) :
    List PreparedRegister → Poll → Option Poll
  | [], s => some s
  | reg :: rest, s => (pollRegister qt resp s reg).bind (pollLoop qt resp rest)

/-- `parsePoll`: the new state and the message sent. The array starts with whatever `memory`
was there. -/
def parsePoll (qt : Conversions) (read : MergedRead) (resp : QModbusDataUnit) (memory : Words)
    (currentState : Bytes → Scalar) : Option ((Bytes → Scalar) × Option QVariant) := do
  let s ← pollLoop qt resp read.regs { data := memory, currentState := currentState }
  let sent := if s.diff = [] then none else some (Unflatten .invalid s.diff)
  return (s.currentState, sent)

/-- The value `parsePoll` decodes for a register that comes after the registers `before`. -/
def decodedAfter (qt : Conversions) (resp : QModbusDataUnit) (memory : Words)
    (currentState : Bytes → Scalar) (before : List PreparedRegister) (reg : PreparedRegister) :
    Option Scalar := do
  let s ← pollLoop qt resp before { data := memory, currentState := currentState }
  let (asVariant, _) ← decodeRegister reg (loadWords resp reg s.data)
  return asVariant

/-- Two responses agree on the words of a register. -/
def AgreeOn (reg : PreparedRegister) (resp other : QModbusDataUnit) : Prop :=
  ∀ i : ℕ, i < reg.sizeOf / 2 → resp.value (reg.index + i - resp.startAddress) =
    other.value (reg.index + i - other.startAddress)

/-- A register decodes to the same value in every two responses that agree on its words,
whatever memory the array starts with and whatever values were reported before. -/
def Independent (qt : Conversions) (before : List PreparedRegister) (reg : PreparedRegister) :
    Prop :=
  ∀ resp other memory memory' state state', AgreeOn reg resp other →
    decodedAfter qt resp memory state before reg = decodedAfter qt other memory' state' before reg

/-! ## Where the words in the array come from -/

/-- What a place of the array holds: one of the two places as they were at the start, or the
word of an address of the response. -/
inductive Source where
  | first
  | second
  | word (address : ℤ)
  deriving DecidableEq, Repr

/-- The word a source stands for. -/
def Source.eval (resp : QModbusDataUnit) (memory : Words) : Source → Word
  | .first => memory.1
  | .second => memory.2
  | .word address => resp.value (address - resp.startAddress)

/-- How one register changes the sources of the two places. -/
def Source.step (s : Source × Source) (reg : PreparedRegister) : Source × Source :=
  let loaded := (Source.word reg.index, if reg.sizeOf = 4 then .word (reg.index + 1) else s.2)
  if reg.packing.word ≠ .little then (loaded.2, loaded.1) else loaded

/-- The sources of the two places after some registers. -/
def sources (regs : List PreparedRegister) : Source × Source :=
  regs.foldl Source.step (.first, .second)

/-- The words the two sources stand for. -/
def evalPair (resp : QModbusDataUnit) (memory : Words) (s : Source × Source) : Words :=
  (s.1.eval resp memory, s.2.eval resp memory)

/-- Decoding a register of a validated map returns and leaves the swapped array behind. -/
theorem decodeRegister_data {reg : PreparedRegister} (htype : reg.type ≠ .defaultValueType)
    (data : Words) : ∃ v, decodeRegister reg data = some (v, swapWords reg.packing data) := by
  unfold decodeRegister
  cases h : reg.type with
  | defaultValueType => exact absurd h htype
  | _ => exact ⟨_, rfl⟩

/-- The value of a one-word register depends on the first place after the swap alone. -/
theorem decodeRegister_oneWord_congr {reg : PreparedRegister} (hsize : reg.sizeOf = 2)
    {data other : Words} (h : (swapWords reg.packing data).1 = (swapWords reg.packing other).1) :
    (decodeRegister reg data).map Prod.fst = (decodeRegister reg other).map Prod.fst := by
  rw [reg.sized] at hsize
  cases htype : reg.type with
  | defaultValueType => simp only [decodeRegister, htype, Option.map_none]
  | bit => simp only [decodeRegister, htype, Option.map_some, h]
  | uint16 => simp only [decodeRegister, htype, Option.map_some, parseWords16, h]
  | uint32 => simp [htype, getSizeOf] at hsize
  | float32 => simp [htype, getSizeOf] at hsize

/-- The words 0 and 1 are decoded to different values. -/
theorem decodeRegister_oneWord_ne {reg : PreparedRegister} (hsize : reg.sizeOf = 2)
    (htyped : reg.type ≠ .defaultValueType) {data other : Words}
    (hzero : (swapWords reg.packing data).1 = 0) (hone : (swapWords reg.packing other).1 = 1) :
    (decodeRegister reg data).map Prod.fst ≠ (decodeRegister reg other).map Prod.fst := by
  rw [reg.sized] at hsize
  cases htype : reg.type with
  | defaultValueType => exact absurd htype htyped
  | bit => simp [decodeRegister, htype, hzero, hone]
  | uint16 =>
    simp only [decodeRegister, htype, Option.map_some, parseWords16, hzero, hone, ne_eq,
      Option.some_inj, Scalar.int.injEq]
    cases reg.packing.byte <;> decide
  | uint32 => simp [htype, getSizeOf] at hsize
  | float32 => simp [htype, getSizeOf] at hsize

/-- Two words after loading and swapping are those of the sources that a step of the sources names.
-/
private theorem swapWords_loadWords (resp : QModbusDataUnit) (memory : Words)
    (src : Source × Source) (reg : PreparedRegister) :
    swapWords reg.packing (loadWords resp reg (evalPair resp memory src)) =
      evalPair resp memory (Source.step src reg) := by
  unfold swapWords loadWords Source.step evalPair
  split_ifs <;> rfl

/-- After the loop the array holds the words its sources stand for. -/
theorem pollLoop_data (qt : Conversions) (resp : QModbusDataUnit) (memory : Words)
    {regs : List PreparedRegister} (htyped : ∀ reg ∈ regs, reg.type ≠ .defaultValueType)
    {src : Source × Source} {s : Poll} (hs : s.data = evalPair resp memory src) :
    ∃ t, pollLoop qt resp regs s = some t ∧
      t.data = evalPair resp memory (regs.foldl Source.step src) := by
  induction regs generalizing s src with
  | nil => exact ⟨s, rfl, hs⟩
  | cons reg rest ih =>
    obtain ⟨v, hv⟩ := decodeRegister_data (htyped reg (by simp)) (loadWords resp reg s.data)
    have hstep : ∃ t, pollRegister qt resp s reg = some t ∧
        t.data = evalPair resp memory (Source.step src reg) := by
      rw [← swapWords_loadWords, ← hs]
      simp only [pollRegister, hv, Option.bind_eq_bind, Option.bind_some]
      split
      · exact ⟨_, rfl, rfl⟩
      · exact ⟨_, rfl, rfl⟩
    obtain ⟨t, ht, hdata⟩ := hstep
    rw [pollLoop, ht, Option.bind_some]
    exact ih (fun r hr => htyped r (by simp [hr])) hdata

/-- The decoded value, from the sources of the two places. -/
theorem decodedAfter_eq (qt : Conversions) (resp : QModbusDataUnit) (memory : Words)
    (state : Bytes → Scalar) {before : List PreparedRegister} (reg : PreparedRegister)
    (htyped : ∀ r ∈ before, r.type ≠ .defaultValueType) :
    decodedAfter qt resp memory state before reg = (decodeRegister reg
      (loadWords resp reg (evalPair resp memory (sources before)))).map Prod.fst := by
  have hstart : ({ data := memory, currentState := state } : Poll).data =
      evalPair resp memory (.first, .second) := rfl
  obtain ⟨t, ht, hdata⟩ := pollLoop_data qt resp memory htyped hstart
  simp only [decodedAfter, ht, Option.bind_eq_bind, Option.bind_some]
  rw [sources, ← hdata]
  cases decodeRegister reg (loadWords resp reg t.data) <;> rfl

/-- A unit of one word has it at its first address and zero elsewhere. -/
private theorem value_first (w : Word) {address start : ℤ} :
    ({ startAddress := start, values := [w] } : QModbusDataUnit).value (address - start) =
      if address = start then w else 0 := by
  unfold QModbusDataUnit.value
  split_ifs with hneg heq heq
  · omega
  · rfl
  · simp [heq]
  · obtain ⟨n, hn⟩ : ∃ n, (address - start).toNat = n + 1 :=
      ⟨(address - start).toNat - 1, by omega⟩
    rw [hn]
    rfl

/-- A source other than the register's own word can be changed while its word stays. -/
private theorem exists_distinguishing {reg : PreparedRegister} (hsize : reg.sizeOf = 2)
    {src : Source} (hsrc : src ≠ .word reg.index) :
    ∃ resp other memory memory', AgreeOn reg resp other ∧
      src.eval resp memory = 0 ∧ src.eval other memory' = 1 := by
  cases src with
  | first => exact ⟨{}, {}, (0, 0), (1, 0), fun _ _ => rfl, rfl, rfl⟩
  | second => exact ⟨{}, {}, (0, 0), (0, 1), fun _ _ => rfl, rfl, rfl⟩
  | word address =>
    have hne : reg.index ≠ address := fun h => hsrc (by rw [h])
    refine ⟨{ startAddress := address, values := [0] }, { startAddress := address, values := [1] },
      (0, 0), (0, 0), ?_, ?_, ?_⟩
    · intro i hi
      obtain rfl : i = 0 := by omega
      simp only [value_first, Int.natCast_zero, Int.add_zero, hne, if_false]
    · simp only [Source.eval, value_first, if_true]
    · simp only [Source.eval, value_first, if_true]

/-- The exact condition under which the value of a register depends on its own words alone: it
has two words, or keeps the host's word order, or an earlier register happens to have left the
register's own word in the second place of the array. -/
theorem parsePoll_independent_iff (qt : Conversions) (read : MergedRead)
    {before after : List PreparedRegister} {reg : PreparedRegister}
    (hread : read.regs = before ++ reg :: after) :
    Independent qt before reg ↔
      reg.sizeOf = 4 ∨ reg.packing.word = .little ∨ (sources before).2 = .word reg.index := by
  have hreg : reg.type ≠ .defaultValueType := read.typed reg (by simp [hread])
  have hbefore : ∀ r ∈ before, r.type ≠ .defaultValueType :=
    fun r hr => read.typed r (by simp [hread, hr])
  have hsizes : reg.sizeOf = 2 ∨ reg.sizeOf = 4 := by
    rw [reg.sized]
    cases reg.type <;> simp [getSizeOf]
  constructor
  · intro h
    by_contra hcond
    simp only [not_or] at hcond
    obtain ⟨hfour, hword, hsrc⟩ := hcond
    have hsize := hsizes.resolve_right hfour
    obtain ⟨resp, other, memory, memory', hagree, hzero, hone⟩ := exists_distinguishing hsize hsrc
    have heq := h resp other memory memory' (fun _ => .invalid) (fun _ => .invalid) hagree
    rw [decodedAfter_eq qt _ _ _ _ hbefore, decodedAfter_eq qt _ _ _ _ hbefore] at heq
    refine decodeRegister_oneWord_ne hsize hreg ?_ ?_ heq
    · simp only [swapWords, ne_eq, hword, not_false_eq_true, if_true, loadWords, if_neg hfour]
      exact hzero
    · simp only [swapWords, ne_eq, hword, not_false_eq_true, if_true, loadWords, if_neg hfour]
      exact hone
  · intro hcond resp other memory memory' state state' hagree
    rw [decodedAfter_eq qt _ _ _ _ hbefore, decodedAfter_eq qt _ _ _ _ hbefore]
    have hfirst := hagree 0 (by omega)
    simp only [Int.natCast_zero, Int.add_zero] at hfirst
    rcases hsizes with hsize | hsize
    · apply decodeRegister_oneWord_congr hsize
      have hfour : ¬ reg.sizeOf = 4 := by omega
      simp only [swapWords, loadWords, if_neg hfour, hfirst]
      split_ifs with hword
      · have hsrc := (hcond.resolve_left hfour).resolve_left hword
        simp only [evalPair, hsrc, Source.eval, hfirst]
      · rfl
    · have hsecond := hagree 1 (by omega)
      simp only [Int.natCast_one] at hsecond
      simp only [loadWords, hsize, if_true, hfirst, hsecond]

/-- A `uint32` register at address 0. -/
def wideRegister : PreparedRegister := { key := [97], type := .uint32, index := 0 }

/-- A `uint16` register at address 2 with the given word order. -/
def narrowRegister (word : ByteOrder) : PreparedRegister :=
  { key := [98], type := .uint16, packing := { word := word }, index := 2 }

/-- The `uint16` register in the host's word order. -/
theorem parsePoll_independent_little :
    Independent integersOnly [wideRegister] (narrowRegister .little) :=
  (parsePoll_independent_iff integersOnly
    { regs := [wideRegister, narrowRegister .little]
      unit := { registerType := .HoldingRegisters, startAddress := 0, valueCount := 3 }
      typed := by simp [wideRegister, narrowRegister] } rfl).mpr (.inr (.inl rfl))

/-- With `word = big` the `uint16` register decodes to the second word of the register before
it. -/
theorem parsePoll_reads_neighbour :
    decodedAfter integersOnly { startAddress := 0, valueCount := 3, values := [0, 1, 5] } (0, 0)
        (fun _ => .invalid) [wideRegister] (narrowRegister .big) = some (.int 1) ∧
      decodedAfter integersOnly { startAddress := 0, valueCount := 3, values := [0, 2, 5] } (0, 0)
        (fun _ => .invalid) [wideRegister] (narrowRegister .big) = some (.int 2) ∧
      ¬ Independent integersOnly [wideRegister] (narrowRegister .big) := by
  refine ⟨by decide, by decide, fun h => ?_⟩
  have hagree : AgreeOn (narrowRegister .big)
      { startAddress := 0, valueCount := 3, values := [0, 1, 5] }
      { startAddress := 0, valueCount := 3, values := [0, 2, 5] } := by
    intro i hi
    obtain rfl : i = 0 := by
      simp only [narrowRegister, getSizeOf] at hi
      omega
    rfl
  have heq := h _ _ (0, 0) (0, 0) (fun _ => .invalid) (fun _ => .invalid) hagree
  revert heq
  decide

end Radapter.Modbus
