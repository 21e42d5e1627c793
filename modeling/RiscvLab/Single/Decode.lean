import RiscvLab.Hdl.Comparison
import RiscvLab.Hdl.Immediates
import RiscvLab.Rv32i.Machine
import RiscvLab.Single.Core

/-!
# Decoding in the single-cycle core

The rows of its main decoder, the codes of its ALU, and the operations they
stand for.
-/
namespace RiscvLab.Single
open RiscvLab.Lib.ByteMemory RiscvLab.Hdl RiscvLab.Rv32i

def aluCode : AluOp → BitVec 4
  | .add => 0b0000
  | .sub => 0b0001
  | .and => 0b0010
  | .or => 0b0011
  | .slt => 0b0101
  | .xor => 0b0110
  | .sll => 0b0111
  | .sltu => 0b1000
  | .srl => 0b1001
  | .sra => 0b1010

section Alu

/-- The ALU computes the operation that its code stands for. -/
theorem alu_result (x : Undef) (op : AluOp) (a b : Word) :
    (alu x a b (aluCode op)).result = aluResult op a b := by
  cases op with
  | add => exact result_add a b rfl
  | sub => exact result_sub a b rfl
  | and => rfl
  | or => rfl
  | xor => rfl
  | slt =>
    change (BitVec.ofBool ((aluSum a b 0b0101).getLsbD 31 ^^ overflow a b 0b0101)).setWidth 32 = _
    rw [sign_xor_overflow a b rfl rfl, aluResult]
    cases a.slt b <;> rfl
  | sltu =>
    change (BitVec.ofBool (a.ult b)).setWidth 32 = _
    rw [aluResult]
    cases a.ult b <;> rfl
  | sra =>
    change a.sshiftRight (b.extractLsb' 0 5).toNat = _
    rw [shift_amount, aluResult]
  | srl =>
    change a >>> (b.extractLsb' 0 5).toNat = _
    rw [shift_amount, aluResult]
  | sll =>
    change a <<< (b.extractLsb' 0 5).toNat = _
    rw [shift_amount, aluResult]

/-- The controller decides a branch from the flags of the subtraction as RV32I does. -/
theorem branchCondition_sub (x : Undef) {f3 : BitVec 3} {op : BranchOp} (h : branchOp f3 = some op)
    (a b : Word) : branchCondition x f3 (alu x a b 0b0001) = branchTaken op a b := by
  have difference : alu x a b 0b0001 = aluOut a b 0b0001 (a - b) := by
    rw [← result_sub a b (c := 0b0001) rfl]
    rfl
  have less := flag_less (a := a) (b := b) (c := 0b0001) rfl rfl
  have carry := flag_carry (a := a) (b := b) (c := 0b0001) rfl rfl
  rw [difference]
  unfold branchOp at h
  split at h <;> cases h <;>
    simp only [branchCondition, branchTaken, flag_zero, less, carry, Bool.not_not, bne]

end Alu

section Rows

variable (x : Undef)

theorem maindec_load : maindec x 0b0000011 =
    ⟨true, 0b000, true, false, 0b01, false, 0b00, false, false⟩ := by
  simp [maindec, Controls.ofBits]

theorem maindec_store : maindec x 0b0100011 =
    ⟨false, 0b001, true, true, 0b00, false, 0b00, false, false⟩ := by
  simp [maindec, Controls.ofBits]

/-- The register row of the main decoder leaves the immediate format open. -/
theorem maindec_reg : maindec x 0b0110011 =
    ⟨true, x.controls.extractLsb' 9 3, false, false, 0b00, false, 0b10, false, false⟩ := by
  have row : ∀ u : BitVec 3, Controls.ofBits (0b1#1 ++ u ++ 0b0_0_00_0_10_0_0#9) =
      ⟨true, u, false, false, 0b00, false, 0b10, false, false⟩ := by decide
  exact row _

theorem maindec_branch : maindec x 0b1100011 =
    ⟨false, 0b010, false, false, 0b00, true, 0b01, false, false⟩ := by
  simp [maindec, Controls.ofBits]

theorem maindec_imm : maindec x 0b0010011 =
    ⟨true, 0b000, true, false, 0b00, false, 0b10, false, false⟩ := by
  simp [maindec, Controls.ofBits]

theorem maindec_jal : maindec x 0b1101111 =
    ⟨true, 0b011, false, false, 0b10, false, 0b00, true, false⟩ := by
  simp [maindec, Controls.ofBits]

theorem maindec_lui : maindec x 0b0110111 =
    ⟨true, 0b100, true, false, 0b00, false, 0b11, false, false⟩ := by
  simp [maindec, Controls.ofBits]

theorem maindec_auipc : maindec x 0b0010111 =
    ⟨true, 0b100, true, false, 0b11, false, 0b11, false, false⟩ := by
  simp [maindec, Controls.ofBits]

theorem maindec_jalr : maindec x 0b1100111 =
    ⟨true, 0b000, true, false, 0b10, false, 0b00, true, true⟩ := by
  simp [maindec, Controls.ofBits]

end Rows

section Codes

variable {x : Undef} {f3 : BitVec 3} {f7 : BitVec 7} {op : AluOp}

theorem aludec_reg (h : regOp f3 f7 = some op) :
    aludec x true f3 (f7.getLsbD 5) 0b10 = aluCode op := by
  unfold regOp at h
  split at h
  next zero =>
    subst zero
    split at h <;> cases h <;> rfl
  next =>
    split at h
    next alternate =>
      subst alternate
      split at h <;> cases h <;> rfl
    next => cases h

theorem aludec_imm (h : immOp f3 f7 = some op) :
    aludec x false f3 (f7.getLsbD 5) 0b10 = aluCode op := by
  unfold immOp at h
  split at h
  case h_1 | h_3 | h_4 | h_5 | h_7 | h_8 =>
    cases h
    simp [aludec, aluCode]
  case h_2 =>
    split at h <;> cases h
    rfl
  case h_6 =>
    split at h
    next zero =>
      cases h
      rw [zero]
      rfl
    next =>
      split at h <;> cases h
      next alternate => rw [alternate]; rfl
  case h_9 => cases h

end Codes

end RiscvLab.Single
