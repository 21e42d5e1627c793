import RiscvLab.Pipelined.Alu
import RiscvLab.Single.Decode

/-!
# The two ALUs side by side

`aludec` followed by `alu`, and `Branch_condition` on its flags, in the single-cycle
and in the pipelined core. The cores number the operations differently, so a flag
that is gated by bits of the code has to be looked at in each of them.
-/
namespace RiscvLab.Cores
open RiscvLab.Lib.ByteMemory RiscvLab.Hdl RiscvLab.Rv32i

section Outputs

variable (x : Undef) (opb5 : Bool) (f3 : BitVec 3) (funct7b5 : Bool) (aluOp : BitVec 2) (a b : Word)

/-- The ALU of the single-cycle core under the control of its decoder. -/
def singleAlu : AluOut := Single.alu x a b (Single.aludec x opb5 f3 funct7b5 aluOp)

/-- The ALU of the pipelined core under the control of its decoder. -/
def pipelinedAlu : AluOut := Pipelined.alu x a b (Pipelined.aludec x opb5 f3 funct7b5 aluOp)

end Outputs

section Agreement

variable (x x' : Undef)

/-- Both decoders know every function code of register and immediate arithmetic. -/
theorem aludec_code (opb5 : Bool) (f3 : BitVec 3) (funct7b5 : Bool) : ∃ op : AluOp,
    Single.aludec x opb5 f3 funct7b5 0b10 = Single.aluCode op ∧
      Pipelined.aludec x' opb5 f3 funct7b5 0b10 = Pipelined.aluCode op := by
  have functions : f3 = 0 ∨ f3 = 1 ∨ f3 = 2 ∨ f3 = 3 ∨ f3 = 4 ∨ f3 = 5 ∨ f3 = 6 ∨ f3 = 7 := by
    revert f3
    decide
  rcases functions with rfl | rfl | rfl | rfl | rfl | rfl | rfl | rfl
  · cases opb5 with
    | false => exact ⟨.add, by cases funct7b5 <;> exact ⟨rfl, rfl⟩⟩
    | true =>
      cases funct7b5 with
      | false => exact ⟨.add, rfl, rfl⟩
      | true => exact ⟨.sub, rfl, rfl⟩
  · exact ⟨.sll, rfl, rfl⟩
  · exact ⟨.slt, rfl, rfl⟩
  · exact ⟨.sltu, rfl, rfl⟩
  · exact ⟨.xor, rfl, rfl⟩
  · cases funct7b5 with
    | false => exact ⟨.srl, rfl, rfl⟩
    | true => exact ⟨.sra, rfl, rfl⟩
  · exact ⟨.or, rfl, rfl⟩
  · exact ⟨.and, rfl, rfl⟩

theorem alu_agree (opb5 : Bool) (f3 : BitVec 3) (funct7b5 : Bool) (a b : Word) :
    (singleAlu x opb5 f3 funct7b5 0b10 a b).result =
      (pipelinedAlu x' opb5 f3 funct7b5 0b10 a b).result := by
  obtain ⟨op, single, pipelined⟩ := aludec_code x x' opb5 f3 funct7b5
  rw [singleAlu, pipelinedAlu, single, pipelined, Single.alu_result, Pipelined.alu_result]

end Agreement

/-- For every legal encoding both cores compute the RV32I operation and take the
RV32I branch decision, so on every pair of operands they agree; on register and
immediate arithmetic they agree even for function codes that are no encoding. -/
theorem alu_branch_correct (x x' : Undef) (a b : Word) :
    (∀ f3 f7 op, regOp f3 f7 = some op →
      (singleAlu x true f3 (f7.getLsbD 5) 0b10 a b).result = aluResult op a b ∧
      (pipelinedAlu x' true f3 (f7.getLsbD 5) 0b10 a b).result = aluResult op a b) ∧
    (∀ f3 f7 op, immOp f3 f7 = some op →
      (singleAlu x false f3 (f7.getLsbD 5) 0b10 a b).result = aluResult op a b ∧
      (pipelinedAlu x' false f3 (f7.getLsbD 5) 0b10 a b).result = aluResult op a b) ∧
    (∀ f3 op opb5 funct7b5, branchOp f3 = some op →
      Single.branchCondition x f3 (singleAlu x opb5 f3 funct7b5 0b01 a b) = branchTaken op a b ∧
      Pipelined.branchCondition f3 (pipelinedAlu x' opb5 f3 funct7b5 0b01 a b) =
        branchTaken op a b) ∧
    (∀ opb5 f3 funct7b5, (singleAlu x opb5 f3 funct7b5 0b10 a b).result =
      (pipelinedAlu x' opb5 f3 funct7b5 0b10 a b).result) := by
  refine ⟨fun f3 f7 op legal => ?_, fun f3 f7 op legal => ?_, fun f3 op opb5 funct7b5 legal => ?_,
    fun opb5 f3 funct7b5 => alu_agree x x' opb5 f3 funct7b5 a b⟩
  · rw [singleAlu, pipelinedAlu, Single.aludec_reg legal, Pipelined.aludec_reg legal]
    exact ⟨Single.alu_result x op a b, Pipelined.alu_result x' op a b⟩
  · rw [singleAlu, pipelinedAlu, Single.aludec_imm legal, Pipelined.aludec_imm legal]
    exact ⟨Single.alu_result x op a b, Pipelined.alu_result x' op a b⟩
  · exact ⟨Single.branchCondition_sub x legal a b, Pipelined.branchCondition_sub x' legal a b⟩

/-- At the sign boundary: `sra` keeps the sign, `blt` and `bltu` differ. -/
theorem alu_branch_correct_boundary :
    (singleAlu default true 0b101 true 0b10 0x80000000 33).result = 0xC0000000 ∧
    Pipelined.branchCondition 0b100 (pipelinedAlu default true 0b100 false 0b01 0x80000000 1) =
      true ∧
    Pipelined.branchCondition 0b110 (pipelinedAlu default true 0b110 false 0b01 0x80000000 1) =
      false := by
  have shift := alu_branch_correct default default 0x80000000 33
  have compare := alu_branch_correct default default 0x80000000 1
  refine ⟨?_, ?_, ?_⟩
  · exact (shift.1 0b101 0b0100000 .sra (by decide)).1.trans (by decide)
  · exact (compare.2.2.1 0b100 .blt true false (by decide)).2.trans (by decide)
  · exact (compare.2.2.1 0b110 .bltu true false (by decide)).2.trans (by decide)

end RiscvLab.Cores
