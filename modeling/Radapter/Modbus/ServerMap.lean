import Radapter.Modbus.Slave

/-!
# A server

A `QModbusServer` that keeps its words in one table for each register type, as Qt's does.
-/

namespace Radapter.Modbus

/-- A server that keeps its words as they are written. -/
structure ServerMap where
  ranges : RegisterType → Option QModbusDataUnit
  words : RegisterType → ℤ → Word := fun _ _ => 0

/-- The address is one of the table's. -/
def ServerMap.Has (s : ServerMap) (type : RegisterType) (a : ℤ) : Prop :=
  ∃ unit ∈ s.ranges type, unit.startAddress ≤ a ∧ a < unit.startAddress + unit.valueCount

instance (s : ServerMap) (type : RegisterType) (a : ℤ) : Decidable (s.Has type a) :=
  inferInstanceAs (Decidable (∃ unit ∈ s.ranges type, _))

/-- The words after a unit has been written. -/
def ServerMap.write (s : ServerMap) (unit : QModbusDataUnit) : ServerMap :=
  { s with
    words := fun type a =>
      if type = unit.registerType ∧ unit.startAddress ≤ a ∧
          a < unit.startAddress + unit.values.length then
        unit.values.getD (a - unit.startAddress).toNat 0
      else s.words type a }

/-- The server that refuses what is not in its ranges, and signals changes. -/
def mapServer : QModbusServer where
  State := ServerMap
  setMap := fun ranges => { ranges := ranges }
  data := fun s type a => if s.Has type a then some (s.words type a) else none
  setData := fun s unit =>
    if ∀ i < unit.values.length, s.Has unit.registerType (unit.startAddress + i) then
      some (s.write unit, decide (∃ i < unit.values.length,
        s.words unit.registerType (unit.startAddress + i) ≠ unit.values.getD i 0))
    else none
  data_written := by
    intro s unit t signals h i hi
    obtain ⟨hhas, hpair⟩ := Option.ite_none_right_eq_some.mp h
    cases hpair
    have hat : (s.write unit).Has unit.registerType (unit.startAddress + i) := hhas i hi
    rw [if_pos hat, List.getElem?_eq_getElem hi]
    have hin : unit.registerType = unit.registerType ∧ unit.startAddress ≤ unit.startAddress + i ∧
        unit.startAddress + i < unit.startAddress + unit.values.length := ⟨rfl, by omega, by omega⟩
    dsimp only [ServerMap.write]
    rw [if_pos hin]
    simp [hi]
  data_other := by
    intro s unit t signals h type a hother
    obtain ⟨-, hpair⟩ := Option.ite_none_right_eq_some.mp h
    cases hpair
    have hwords : (s.write unit).words type a = s.words type a := by
      simp only [ServerMap.write]
      rw [if_neg]
      rintro ⟨htype, hlow, hhigh⟩
      rcases hother with hother | hother | hother
      · exact hother htype
      · omega
      · omega
    rw [hwords]
    rfl
  data_silent := by
    intro s unit t h type a
    obtain ⟨-, hpair⟩ := Option.ite_none_right_eq_some.mp h
    obtain ⟨rfl, hsilent⟩ := Prod.mk.inj (Option.some.inj hpair)
    have hwords : (s.write unit).words type a = s.words type a := by
      simp only [ServerMap.write]
      split_ifs with hat
      · obtain ⟨htype, hlow, hhigh⟩ := hat
        by_contra hne
        apply of_decide_eq_false hsilent
        refine ⟨(a - unit.startAddress).toNat, by omega, ?_⟩
        have haddress : unit.startAddress + ((a - unit.startAddress).toNat : ℤ) = a := by omega
        rw [haddress, ← htype]
        exact fun heq => hne heq.symm
      · rfl
    rw [hwords]
    rfl

end Radapter.Modbus
