import RiscvLab.Hdl.Blocks
import RiscvLab.Rv32i.Encoding

/-!
# Immediates

The extender forms the five architectural immediates.
-/
namespace RiscvLab.Hdl
open RiscvLab.Lib.ByteMemory RiscvLab.Rv32i

variable (x : Undef) (w : Word)

theorem extend_immI : extend x w 0b000 = immI w := by
  show (BitVec.fill 20 (w.getLsbD 31) ++ w.extractLsb' 20 12 : Word) = _
  ext i hi
  simp only [immI, BitVec.getElem_append, BitVec.getElem_fill, BitVec.getElem_signExtend,
    BitVec.msb_extractLsb']
  grind

theorem extend_immS : extend x w 0b001 = immS w := by
  show (BitVec.fill 20 (w.getLsbD 31) ++ w.extractLsb' 25 7 ++ w.extractLsb' 7 5 : Word) = _
  ext i hi
  simp only [immS, BitVec.getElem_append, BitVec.getElem_fill, BitVec.getElem_signExtend,
    BitVec.msb_append, BitVec.msb_extractLsb']
  grind

theorem extend_immB : extend x w 0b010 = immB w := by
  show (BitVec.fill 20 (w.getLsbD 31) ++ w.extractLsb' 7 1 ++ w.extractLsb' 25 6 ++
    w.extractLsb' 8 4 ++ 0#1 : Word) = _
  ext i hi
  simp only [immB, BitVec.getElem_append, BitVec.getElem_fill, BitVec.getElem_signExtend,
    BitVec.msb_append, BitVec.msb_extractLsb']
  grind

theorem extend_immJ : extend x w 0b011 = immJ w := by
  show (BitVec.fill 12 (w.getLsbD 31) ++ w.extractLsb' 12 8 ++ w.extractLsb' 20 1 ++
    w.extractLsb' 21 10 ++ 0#1 : Word) = _
  ext i hi
  simp only [immJ, BitVec.getElem_append, BitVec.getElem_fill, BitVec.getElem_signExtend,
    BitVec.msb_append, BitVec.msb_extractLsb']
  grind

theorem extend_immU : extend x w 0b100 = immU w := rfl

end RiscvLab.Hdl
