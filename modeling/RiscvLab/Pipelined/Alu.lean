import RiscvLab.Hdl.Comparison
import RiscvLab.Pipelined.Core
import RiscvLab.Rv32i.Machine

/-!
# ALU and branch decisions of the pipelined core

`aludec` followed by `alu` computes the RV32I operation of every legal register
and immediate encoding, and the flags of the subtraction decide every branch.
-/
namespace RiscvLab.Pipelined
open RiscvLab.Lib.ByteMemory RiscvLab.Hdl RiscvLab.Rv32i

/-- The code of each operation. -/
def aluCode : AluOp → BitVec 4
  | .add => 0b0000
  | .sub => 0b0001
  | .and => 0b0010
  | .or => 0b0011
  | .xor => 0b0100
  | .slt => 0b0101
  | .sra => 0b0110
  | .srl => 0b0111
  | .sll => 0b1000
  | .sltu => 0b1001

/-- The ALU computes the operation that its code stands for. -/
theorem alu_result (x : Undef) (op : AluOp) (a b : Word) :
    (alu x a b (aluCode op)).result = aluResult op a b := by
  cases op with
  | add => exact result_add a b rfl
  | sub => exact result_sub a b rfl
  | and => rfl
  | or => rfl
  | xor => rfl
  | slt =>
    change (BitVec.ofBool ((aluSum a b 0b0101).getLsbD 31 ^^ overflow a b 0b0101)).setWidth 32 = _
    rw [sign_xor_overflow a b rfl rfl, aluResult]
    cases a.slt b <;> rfl
  | sltu =>
    change (BitVec.ofBool (a.ult b)).setWidth 32 = _
    rw [aluResult]
    cases a.ult b <;> rfl
  | sra =>
    change a.sshiftRight (b.extractLsb' 0 5).toNat = _
    rw [shift_amount, aluResult]
  | srl =>
    change a >>> (b.extractLsb' 0 5).toNat = _
    rw [shift_amount, aluResult]
  | sll =>
    change a <<< (b.extractLsb' 0 5).toNat = _
    rw [shift_amount, aluResult]

section Decoder

variable {x : Undef} {f3 : BitVec 3} {f7 : BitVec 7} {op : AluOp}

/-- Register arithmetic: opcode bit 5 is set, so `funct7` selects `sub`. -/
theorem aludec_reg (h : regOp f3 f7 = some op) :
    aludec x true f3 (f7.getLsbD 5) 0b10 = aluCode op := by
  unfold regOp at h
  split at h
  next zero =>
    subst zero
    split at h <;> cases h <;> rfl
  next =>
    split at h
    next alternate =>
      subst alternate
      split at h <;> cases h <;> rfl
    next => cases h

/-- Immediate arithmetic: opcode bit 5 is clear, so the immediate never selects `sub`. -/
theorem aludec_imm (h : immOp f3 f7 = some op) :
    aludec x false f3 (f7.getLsbD 5) 0b10 = aluCode op := by
  unfold immOp at h
  split at h
  case h_1 | h_3 | h_4 | h_5 | h_7 | h_8 =>
    cases h
    simp [aludec, aluCode]
  case h_2 =>
    split at h <;> cases h
    rfl
  case h_6 =>
    split at h
    next zero =>
      cases h
      rw [zero]
      rfl
    next =>
      split at h <;> cases h
      next alternate => rw [alternate]; rfl
  case h_9 => cases h

end Decoder

/-- The controller decides a branch from the flags of the subtraction as RV32I does. -/
theorem branchCondition_sub (x : Undef) {f3 : BitVec 3} {op : BranchOp} (h : branchOp f3 = some op)
    (a b : Word) : branchCondition f3 (alu x a b 0b0001) = branchTaken op a b := by
  have difference : alu x a b 0b0001 = aluOut a b 0b0001 (a - b) := by
    rw [← result_sub a b (c := 0b0001) rfl]
    rfl
  have less := flag_less (a := a) (b := b) (c := 0b0001) rfl rfl
  have carry := flag_carry (a := a) (b := b) (c := 0b0001) rfl rfl
  rw [difference]
  unfold branchOp at h
  split at h <;> cases h <;>
    simp only [branchCondition, branchTaken, flag_zero, less, carry, Bool.not_not, bne]

end RiscvLab.Pipelined
