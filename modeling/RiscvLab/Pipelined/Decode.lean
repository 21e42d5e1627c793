import RiscvLab.Hdl.Immediates
import RiscvLab.Pipelined.Alu

/-!
# Decoded control bits

What the decode stage hands to the execute stage for each class of instruction,
read off the main decoder and the ALU decoder. The bits that the table leaves
open do not occur on the right.
-/
namespace RiscvLab.Pipelined
open RiscvLab.Lib.ByteMemory RiscvLab.Hdl RiscvLab.Rv32i

/-- The control bits that the table specifies for every instruction. -/
structure Decoded where
  regWrite : Bool
  resultSrc : BitVec 2
  memWrite : Bool
  jump : Bool
  branch : Bool
  aluSrc : Bool
  auipcSrc : Bool
  deriving DecidableEq, Repr

def decoded : Instr → Decoded
  | .load .. => ⟨true, 0b01, false, false, false, true, false⟩
  | .store .. => ⟨false, 0b00, true, false, false, true, false⟩
  | .reg .. => ⟨true, 0b00, false, false, false, false, false⟩
  | .imm .. => ⟨true, 0b00, false, false, false, true, false⟩
  | .branch .. => ⟨false, 0b00, false, false, true, false, false⟩
  | .jal .. => ⟨true, 0b10, false, true, false, false, false⟩
  | .jalr .. => ⟨true, 0b10, false, true, false, true, false⟩
  | .lui .. => ⟨true, 0b11, false, false, false, true, false⟩
  | .auipc .. => ⟨true, 0b00, false, false, false, true, true⟩

/-- The ALU code matters for arithmetic, addresses and comparisons only. -/
def aluCodeOf : Instr → Option (BitVec 4)
  | .load .. | .store .. | .jalr .. | .auipc .. => some (aluCode .add)
  | .reg op .. | .imm op .. => some (aluCode op)
  | .branch .. => some (aluCode .sub)
  | .jal .. | .lui .. => none

section Rows

variable (x : Undef)

theorem maindec_load : maindec x 0b0000011 =
    ⟨true, 0b000, true, false, 0b01, false, 0b00, false, false⟩ := by
  simp [maindec, Controls.ofBits]

theorem maindec_store : maindec x 0b0100011 =
    ⟨false, 0b001, true, true, 0b00, false, 0b00, false, false⟩ := by
  simp [maindec, Controls.ofBits]

theorem maindec_branch : maindec x 0b1100011 =
    ⟨false, 0b010, false, false, 0b00, true, 0b01, false, false⟩ := by
  simp [maindec, Controls.ofBits]

theorem maindec_imm : maindec x 0b0010011 =
    ⟨true, 0b000, true, false, 0b00, false, 0b10, false, false⟩ := by
  simp [maindec, Controls.ofBits]

theorem maindec_jal : maindec x 0b1101111 =
    ⟨true, 0b011, false, false, 0b10, false, 0b00, true, false⟩ := by
  simp [maindec, Controls.ofBits]

theorem maindec_jalr : maindec x 0b1100111 =
    ⟨true, 0b000, true, false, 0b10, false, 0b00, true, false⟩ := by
  simp [maindec, Controls.ofBits]

theorem maindec_auipc : maindec x 0b0010111 =
    ⟨true, 0b100, true, false, 0b00, false, 0b00, false, true⟩ := by
  simp [maindec, Controls.ofBits]

theorem maindec_zero : maindec x 0b0000000 =
    ⟨false, 0b000, false, false, 0b00, false, 0b00, false, false⟩ := by
  simp [maindec, Controls.ofBits]

/-- The register row of the main decoder leaves the immediate format open. -/
theorem maindec_reg : maindec x 0b0110011 =
    ⟨true, x.controls.extractLsb' 9 3, false, false, 0b00, false, 0b10, false, false⟩ := by
  have row : ∀ u : BitVec 3, Controls.ofBits (0b1#1 ++ u ++ 0b0_0_00_0_10_0_0#9) =
      ⟨true, u, false, false, 0b00, false, 0b10, false, false⟩ := by decide
  exact row _

/-- The `lui` row leaves the lower bit of the ALU operation open. -/
theorem maindec_lui : maindec x 0b0110111 =
    ⟨true, 0b100, true, false, 0b11, false, 0b1#1 ++ x.controls.extractLsb' 2 1, false, false⟩ := by
  have row : ∀ u : BitVec 1, Controls.ofBits (0b1_100_1_0_11_0_1#10 ++ u ++ 0b0_0#2) =
      ⟨true, 0b100, true, false, 0b11, false, 0b1#1 ++ u, false, false⟩ := by decide
  exact row _

end Rows

section Encoded

variable (x : Undef) {w : Word} {i : Instr}

theorem maindec_decoded (h : Encodes w i) :
    let md := maindec x (opcode w)
    (⟨md.regWrite, md.resultSrc, md.memWrite, md.jump, md.branch, md.aluSrc, md.auipcSrc⟩ :
      Decoded) = decoded i := by
  cases i <;> rw [h.1]
  case load => rw [maindec_load]; rfl
  case store => rw [maindec_store]; rfl
  case reg => rw [maindec_reg]; rfl
  case imm => rw [maindec_imm]; rfl
  case branch => rw [maindec_branch]; rfl
  case jal => rw [maindec_jal]; rfl
  case jalr => rw [maindec_jalr]; rfl
  case lui => rw [maindec_lui]; rfl
  case auipc => rw [maindec_auipc]; rfl

theorem extend_decoded (h : Encodes w i) {imm : Word} (hi : immOf i = some imm) :
    extend x w (maindec x (opcode w)).immSrc = imm := by
  cases i <;> cases hi <;> rw [h.1]
  case load => rw [h.2.2.2.2, maindec_load, extend_immI]
  case store => rw [h.2.2.2.2, maindec_store, extend_immS]
  case imm => rw [h.2.2.2.2, maindec_imm, extend_immI]
  case branch => rw [h.2.2.2.2, maindec_branch, extend_immB]
  case jal => rw [h.2.2, maindec_jal, extend_immJ]
  case jalr => rw [h.2.2.2.2, maindec_jalr, extend_immI]
  case lui => rw [h.2.2, maindec_lui, extend_immU]
  case auipc => rw [h.2.2, maindec_auipc, extend_immU]

theorem aludec_decoded (h : Encodes w i) {code : BitVec 4} (hc : aluCodeOf i = some code) :
    aludec x (w.getLsbD 5) (funct3 w) (w.getLsbD 30) (maindec x (opcode w)).aluOp = code := by
  cases i <;> cases hc <;> rw [bit5_eq, h.1]
  case reg => rw [maindec_reg, bit30_eq]; exact aludec_reg h.2.1
  case imm => rw [maindec_imm, bit30_eq]; exact aludec_imm h.2.1
  case load => rw [maindec_load]; rfl
  case store => rw [maindec_store]; rfl
  case branch => rw [maindec_branch]; rfl
  case jalr => rw [maindec_jalr]; rfl
  case auipc => rw [maindec_auipc]; rfl

end Encoded

end RiscvLab.Pipelined
