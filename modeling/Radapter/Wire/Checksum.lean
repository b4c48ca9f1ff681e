import Radapter.Library.Crc
import Radapter.Wire.Peer

/-!
# The Modbus checksum

The table of `CRC16_Modbus` has the right entries for all octets, but the index is made from the
whole running word and a sign-extended `char`. The word starts with 16 ones, so that already the
first byte reads behind the table.
-/

namespace Radapter.Wire.Slip

open Library

/-- The polynomial of CRC-16/MODBUS, reflected. -/
def modbusPoly : BitVec 16 := 0xA001

/-- The CRC-16/MODBUS register after the bytes, bit by bit. -/
def modbusRegister (start : BitVec 16) (bytes : Bytes) : BitVec 16 :=
  Crc.checksum modbusPoly start (bytes.map UInt8.toBitVec)

/-- CRC-16/MODBUS. -/
def modbusChecksum (bytes : Bytes) : BitVec 16 := modbusRegister 0xFFFF bytes

/-- `nTemp`: the index for a byte. -/
def tableIndex (wCRCWord : BitVec 32) (b : UInt8) : ℕ :=
  (b.toBitVec.signExtend 32 ^^^ wCRCWord).toNat

/-- The indices that `CRC16_Modbus` reads the table at. -/
def tableIndices (beyond : ℕ → BitVec 32) : BitVec 32 → Bytes → List ℕ
  | _, [] => []
  | wCRCWord, b :: rest =>
      tableIndex wCRCWord b :: tableIndices beyond (crcLoop beyond wCRCWord [b]) rest

/-- The table has eight steps of each octet. -/
theorem wCRCTable_eq : wCRCTable =
    (List.range 256).map fun i => Crc.bitSteps (modbusPoly.setWidth 32) 8 (BitVec.ofNat 32 i) := by
  decide +kernel

/-- The check value of CRC-16/MODBUS, for the digits from 1 to 9. -/
example : modbusChecksum [49, 50, 51, 52, 53, 54, 55, 56, 57] = 0x4B37 := by decide +kernel

/-- An entry of the table is what eight steps make of its index. -/
theorem getElem?_wCRCTable {i : ℕ} (h : i < 256) :
    wCRCTable[i]? = some (Crc.bitSteps (modbusPoly.setWidth 32) 8 (BitVec.ofNat 32 i)) := by
  rw [wCRCTable_eq, List.getElem?_map, List.getElem?_range h]
  rfl

/-- An index below 256 is the low octet of the word with the byte added. -/
theorem low_eq_of_lt {wCRCWord : BitVec 32} {b : UInt8} (h : tableIndex wCRCWord b < 256) :
    Crc.low 8 (wCRCWord ^^^ b.toBitVec.setWidth 32) = BitVec.ofNat 32 (tableIndex wCRCWord b) := by
  have hlow : Crc.low 8 (wCRCWord ^^^ b.toBitVec.setWidth 32) =
      Crc.low 8 (b.toBitVec.signExtend 32 ^^^ wCRCWord) := by
    apply BitVec.eq_of_getLsbD_eq
    intro i hi
    rw [Crc.getLsbD_low, Crc.getLsbD_low]
    by_cases hoctet : i < 8
    · rw [BitVec.getLsbD_xor, BitVec.getLsbD_xor, BitVec.getLsbD_setWidth,
        BitVec.getLsbD_signExtend, if_pos hoctet, Bool.xor_comm]
    · rw [decide_eq_false hoctet, Bool.false_and, Bool.false_and]
  rw [hlow]
  apply BitVec.eq_of_toNat_eq
  rw [Crc.low, BitVec.toNat_setWidth, BitVec.toNat_setWidth, BitVec.toNat_ofNat]
  unfold tableIndex at h ⊢
  omega

/-- With an index below 256 one round of the loop adds the byte bit by bit. -/
theorem crcLoop_singleton (beyond : ℕ → BitVec 32) {wCRCWord : BitVec 32} {b : UInt8}
    (h : tableIndex wCRCWord b < 256) : crcLoop beyond wCRCWord [b] =
      Crc.addByte (modbusPoly.setWidth 32) wCRCWord b.toBitVec := by
  have hround : crcLoop beyond wCRCWord [b] = (wCRCWord >>> 8) ^^^
      (wCRCTable[tableIndex wCRCWord b]?).getD (beyond (tableIndex wCRCWord b)) := rfl
  rw [hround, getElem?_wCRCTable h, Option.getD_some, Crc.addByte_eq, low_eq_of_lt h]

/-- While all indices stay below 256 the word is the bitwise register. -/
theorem crcLoop_eq (beyond : ℕ → BitVec 32) {wCRCWord : BitVec 32} {bytes : Bytes}
    (h : ∀ i ∈ tableIndices beyond wCRCWord bytes, i < 256) : crcLoop beyond wCRCWord bytes =
      Crc.checksum (modbusPoly.setWidth 32) wCRCWord (bytes.map UInt8.toBitVec) := by
  induction bytes generalizing wCRCWord with
  | nil => rfl
  | cons b rest ih =>
    rw [tableIndices, List.forall_mem_cons] at h
    have hround : crcLoop beyond wCRCWord (b :: rest) =
        crcLoop beyond (crcLoop beyond wCRCWord [b]) rest := rfl
    rw [hround, ih h.2, crcLoop_singleton beyond h.1]
    rfl

/-- The first index is never in the table. -/
theorem first_index (b : UInt8) : ¬ tableIndex 0xFFFF b < 256 := by
  have hall : ∀ c : BitVec 8, ¬ (c.signExtend 32 ^^^ 0xFFFF).toNat < 256 := by decide
  exact hall b.toBitVec

/-- `CRC16_Modbus` is CRC-16/MODBUS with all indices in the table for the empty string only: the
first byte of any other reads behind the table. The loop and the table are right otherwise, for
every start and every string whose indices stay below 256. -/
theorem crc16_iff (beyond : ℕ → BitVec 32) (bytes : Bytes) :
    ((CRC16_Modbus beyond bytes = modbusChecksum bytes ∧
        ∀ i ∈ tableIndices beyond 0xFFFF bytes, i < 256) ↔ bytes = []) ∧
      ∀ start : BitVec 16, (∀ i ∈ tableIndices beyond (start.setWidth 32) bytes, i < 256) →
        (crcLoop beyond (start.setWidth 32) bytes).setWidth 16 = modbusRegister start bytes := by
  refine ⟨⟨?_, ?_⟩, fun start h => ?_⟩
  · rintro ⟨-, hindices⟩
    cases bytes with
    | nil => rfl
    | cons b rest =>
      rw [tableIndices, List.forall_mem_cons] at hindices
      exact absurd hindices.1 (first_index b)
  · rintro rfl
    exact ⟨rfl, fun i hi => absurd hi List.not_mem_nil⟩
  · rw [crcLoop_eq beyond h, Crc.checksum_setWidth modbusPoly (by decide) (by decide),
      BitVec.setWidth_setWidth (by decide), BitVec.setWidth_eq]
    rfl

/-- For the digit 1 the table is read at 65486, and with zeros there the result is wrong. -/
theorem crc16_one :
    ¬ (CRC16_Modbus (fun _ => 0) [49] = modbusChecksum [49] ∧
        ∀ i ∈ tableIndices (fun _ => 0) 0xFFFF [49], i < 256) ∧
      tableIndices (fun _ => 0) 0xFFFF [49] = [65486] ∧
      CRC16_Modbus (fun _ => 0) [49] = 0x00FF ∧ modbusChecksum [49] = 0x947E := by
  decide +kernel

end Radapter.Wire.Slip
