import RiscvLab.Hdl.Blocks
import RiscvLab.Rv32i.Machine

/-!
# The register file

The array of `regfile` stands for the architectural registers: its read ports
are their values, its write port is their update.
-/
namespace RiscvLab.Hdl
open RiscvLab.Lib.ByteMemory RiscvLab.Rv32i

theorem regRead_eq (rf : RegArray) (r : Reg) : regRead rf r = (Regs.ofArray rf).get r := by
  unfold regRead Regs.ofArray
  by_cases zero : r = 0
  · simp only [zero, ne_eq, not_true_eq_false, if_false, if_true]
  · simp only [zero, ne_eq, not_false_eq_true, if_true, if_false]

section Write

variable (rf : RegArray) (rd r : Reg) (v : Word)

theorem regWrite_apply (we : Bool) :
    regWrite rf we rd v r = if (r == rd) && we then v else rf r := by
  cases we
  · simp [regWrite]
  · by_cases same : r = rd
    · subst same
      simp [regWrite]
    · simp [regWrite, same]

theorem ofArray_regWrite :
    Regs.ofArray (regWrite rf true rd v) = (Regs.ofArray rf).set rd v := by
  ext1 r
  simp only [Regs.ofArray, Regs.set, regWrite_apply, Bool.and_true, beq_iff_eq]
  by_cases zero : r = 0
  · subst zero
    rw [if_pos rfl, if_pos rfl, if_neg (fun h => h.2 h.1.symm)]
  · rw [if_neg zero, if_neg zero]
    by_cases same : r = rd
    · subst same
      rw [if_pos rfl, if_pos ⟨rfl, zero⟩]
    · rw [if_neg same, if_neg (fun h => same h.1)]

theorem ofArray_regWrite_of_ne {we : Bool} (other : ¬ (we = true ∧ rd = r)) :
    (Regs.ofArray (regWrite rf we rd v)).get r = (Regs.ofArray rf).get r := by
  simp only [Regs.ofArray, regWrite_apply, Bool.and_eq_true, beq_iff_eq]
  rw [if_neg (fun writes : r = rd ∧ we = true => other ⟨writes.2, writes.1.symm⟩)]

end Write

end RiscvLab.Hdl
