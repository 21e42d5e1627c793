import RiscvLab.Hdl.Lanes
import RiscvLab.Hdl.Registers
import RiscvLab.Rv32i.Lanes
import RiscvLab.Single.Decode

/-!
# Registers of the single-cycle core

One clock cycle of `riscvsingle` writes the register that the architecture
writes, with the architectural value.
-/
namespace RiscvLab.Single
open RiscvLab.Lib.ByteMemory RiscvLab.Hdl RiscvLab.Rv32i

/-- The architectural state that a core stands for, next to a data memory. -/
def Core.arch (s : Core) (mem : Word → Byte) : Arch := ⟨s.pc, Regs.ofArray s.rf, mem⟩

/-- A load is aligned, and the word read is the one it addresses. -/
def LoadOk (a : Arch) (readData : Word) (i : Instr) : Prop :=
  ∀ op d r1 imm, i = .load op d r1 imm → Aligned op.size (a.regs.get r1 + imm) ∧
    readData = wordAt (n := 30) a.mem (indexOf (a.regs.get r1 + imm))

/-- The control bits that the table specifies for every instruction. -/
structure Decoded where
  regWrite : Bool
  aluSrc : Bool
  memWrite : Bool
  resultSrc : BitVec 2
  branch : Bool
  jump : Bool
  jalrsig : Bool
  deriving DecidableEq, Repr

def Controls.decoded (md : Controls) : Decoded :=
  ⟨md.regWrite, md.aluSrc, md.memWrite, md.resultSrc, md.branch, md.jump, md.jalrsig⟩

def decoded : Instr → Decoded
  | .load .. => ⟨true, true, false, 0b01, false, false, false⟩
  | .store .. => ⟨false, true, true, 0b00, false, false, false⟩
  | .reg .. => ⟨true, false, false, 0b00, false, false, false⟩
  | .imm .. => ⟨true, true, false, 0b00, false, false, false⟩
  | .branch .. => ⟨false, false, false, 0b00, true, false, false⟩
  | .jal .. => ⟨true, false, false, 0b10, false, true, false⟩
  | .jalr .. => ⟨true, true, false, 0b10, false, true, true⟩
  | .lui .. => ⟨true, true, false, 0b00, false, false, false⟩
  | .auipc .. => ⟨true, true, false, 0b11, false, false, false⟩

/-- `lui` has a code of its own that selects the second operand. -/
def aluCodeOf : Instr → BitVec 4
  | .load .. | .store .. | .jal .. | .jalr .. => aluCode .add
  | .reg op .. | .imm op .. => aluCode op
  | .branch .. => aluCode .sub
  | .lui .. | .auipc .. => 0b1011

namespace Core

section Bits

variable (x : Undef) {w : Word} {i : Instr}

theorem controls_decoded (h : Encodes w i) : (controls x w).decoded = Single.decoded i := by
  change (maindec x (opcode w)).decoded = _
  cases i <;> rw [h.1]
  case load => rw [maindec_load]; rfl
  case store => rw [maindec_store]; rfl
  case reg => rw [maindec_reg]; rfl
  case imm => rw [maindec_imm]; rfl
  case branch => rw [maindec_branch]; rfl
  case jal => rw [maindec_jal]; rfl
  case jalr => rw [maindec_jalr]; rfl
  case lui => rw [maindec_lui]; rfl
  case auipc => rw [maindec_auipc]; rfl

theorem immExt_decoded (h : Encodes w i) {imm : Word} (hi : immOf i = some imm) :
    immExt x w = imm := by
  change extend x w (maindec x (opcode w)).immSrc = imm
  cases i <;> cases hi <;> rw [h.1]
  case load => rw [h.2.2.2.2, maindec_load, extend_immI]
  case store => rw [h.2.2.2.2, maindec_store, extend_immS]
  case imm => rw [h.2.2.2.2, maindec_imm, extend_immI]
  case branch => rw [h.2.2.2.2, maindec_branch, extend_immB]
  case jal => rw [h.2.2, maindec_jal, extend_immJ]
  case jalr => rw [h.2.2.2.2, maindec_jalr, extend_immI]
  case lui => rw [h.2.2, maindec_lui, extend_immU]
  case auipc => rw [h.2.2, maindec_auipc, extend_immU]

theorem aluControl_decoded (h : Encodes w i) : aluControl x w = aluCodeOf i := by
  change aludec x (w.getLsbD 5) (funct3 w) (w.getLsbD 30) (maindec x (opcode w)).aluOp = _
  cases i <;> rw [bit5_eq, h.1]
  case reg => rw [maindec_reg, bit30_eq]; exact aludec_reg h.2.1
  case imm => rw [maindec_imm, bit30_eq]; exact aludec_imm h.2.1
  case load => rw [maindec_load]; rfl
  case store => rw [maindec_store]; rfl
  case branch => rw [maindec_branch]; rfl
  case jal => rw [maindec_jal]; rfl
  case jalr => rw [maindec_jalr]; rfl
  case lui => rw [maindec_lui]; rfl
  case auipc => rw [maindec_auipc]; rfl

end Bits

section Operands

variable (x : Undef) {w : Word} {i : Instr} (s : Core) (mem : Word → Byte)

theorem srcA_eq : s.srcA w = (s.arch mem).regs.get (rs1 w) := regRead_eq s.rf (rs1 w)

theorem origWriteData_eq : s.origWriteData w = (s.arch mem).regs.get (rs2 w) :=
  regRead_eq s.rf (rs2 w)

theorem srcB_imm (h : Encodes w i) {imm : Word} (hi : immOf i = some imm)
    (source : (Single.decoded i).aluSrc = true) : s.srcB x w = imm := by
  have bits : (controls x w).aluSrc = _ := congrArg Decoded.aluSrc (controls_decoded x h)
  rw [srcB, bits, source, immExt_decoded x h hi]
  rfl

theorem srcB_reg (h : Encodes w i) (source : (Single.decoded i).aluSrc = false) :
    s.srcB x w = (s.arch mem).regs.get (rs2 w) := by
  have bits : (controls x w).aluSrc = _ := congrArg Decoded.aluSrc (controls_decoded x h)
  rw [srcB, bits, source, origWriteData_eq s mem]
  rfl

theorem alu_eq (h : Encodes w i) : s.alu x w =
    Single.alu x ((s.arch mem).regs.get (rs1 w)) (s.srcB x w) (aluCodeOf i) := by
  rw [alu, aluControl_decoded x h, srcA_eq s mem]

theorem aluResult_access (h : Encodes w i) {size : Nat} {address : Word}
    (ha : access (s.arch mem) i = some (size, address)) : s.aluResult x w = address := by
  have enc := h
  cases i with
  | load op d r1 imm =>
    cases ha
    obtain ⟨-, -, -, rfl, -⟩ := enc
    rw [aluResult, alu_eq x s mem h, srcB_imm x s h rfl rfl, aluCodeOf, alu_result]
    rfl
  | store op r1 r2 imm =>
    cases ha
    obtain ⟨-, -, rfl, -, -⟩ := enc
    rw [aluResult, alu_eq x s mem h, srcB_imm x s h rfl rfl, aluCodeOf, alu_result]
    rfl
  | reg | imm | branch | jal | jalr | lui | auipc => cases ha

end Operands

section Registers

variable (x : Undef) {w readData : Word} {i : Instr} (s : Core) {mem : Word → Byte}

/-- For aligned addresses the load unit extracts the architectural value. -/
theorem loadLine_unit {f3 : BitVec 3} {op : LoadOp} {a : Word} (h : loadOp f3 = some op)
    (aligned : Aligned op.size a) :
    Single.loadLine x f3 a readData = loadWord op readData (laneOf a) := by
  unfold loadOp at h
  split at h <;> cases h
  · exact signedByte_eq readData (laneOf a)
  · exact signedHalf_eq x.loadLane readData (laneOf a) (laneOf_half aligned)
  · rfl
  · exact unsignedByte_eq readData (laneOf a)
  · exact unsignedHalf_eq x.loadLane readData (laneOf a) (laneOf_half aligned)

theorem loadLine_load {op : LoadOp} {d r1 : Reg} {imm : Word}
    (h : Encodes w (.load op d r1 imm)) (ok : LoadOk (s.arch mem) readData (.load op d r1 imm)) :
    s.loadLine x w readData = loadResult op mem ((s.arch mem).regs.get r1 + imm) := by
  obtain ⟨aligned, read⟩ := ok op d r1 imm rfl
  have unit : s.loadLine x w readData =
      Single.loadLine x (funct3 w) (s.aluResult x w) readData := if_pos h.1
  rw [unit, aluResult_access x s mem h rfl, loadLine_unit x h.2.1 aligned,
    loadResult_word mem aligned, read]
  rfl

/-- What the core writes back is the architectural result. -/
theorem regResult_eq (h : Encodes w i) (ok : LoadOk (s.arch mem) readData i) :
    (if (controls x w).regWrite then some (rd w, s.result x w readData) else none) =
      regResult (s.arch mem) i := by
  have write : (controls x w).regWrite = _ := congrArg Decoded.regWrite (controls_decoded x h)
  have source : (controls x w).resultSrc = _ := congrArg Decoded.resultSrc (controls_decoded x h)
  have enc := h
  rw [result, write, source]
  cases i with
  | load op d r1 imm =>
    have value := loadLine_load x s h ok
    obtain ⟨-, -, rfl, -, -⟩ := enc
    rw [Single.decoded, value]
    rfl
  | store | branch => rfl
  | reg op d r1 r2 =>
    have value : s.aluResult x w = _ := congrArg AluOut.result (alu_eq x s mem h)
    obtain ⟨-, -, rfl, rfl, rfl⟩ := enc
    rw [value, srcB_reg x s mem h rfl, aluCodeOf, alu_result, Single.decoded]
    rfl
  | imm op d r1 imm =>
    have value : s.aluResult x w = _ := congrArg AluOut.result (alu_eq x s mem h)
    obtain ⟨-, -, rfl, rfl, -⟩ := enc
    rw [value, srcB_imm x s h rfl rfl, aluCodeOf, alu_result, Single.decoded]
    rfl
  | jal d imm =>
    obtain ⟨-, rfl, -⟩ := enc
    rw [Single.decoded]
    rfl
  | jalr d r1 imm =>
    obtain ⟨-, -, rfl, -, -⟩ := enc
    rw [Single.decoded]
    rfl
  | lui d imm =>
    have value : s.aluResult x w = _ := congrArg AluOut.result (alu_eq x s mem h)
    obtain ⟨-, rfl, -⟩ := enc
    rw [value, srcB_imm x s h rfl rfl, Single.decoded]
    rfl
  | auipc d imm =>
    have target : s.pcTarget x w = s.pc + imm := by
      rw [pcTarget, immExt_decoded x h rfl]
      rfl
    obtain ⟨-, rfl, -⟩ := enc
    rw [target, Single.decoded]
    rfl

/-- The register file after a clock cycle is the architectural one. -/
theorem clock_regs (h : Encodes w i) (ok : LoadOk (s.arch mem) readData i) :
    Regs.ofArray (s.clock x w readData).rf = (execute (s.arch mem) i).regs := by
  have result := regResult_eq x s h ok
  rw [execute, ← result]
  change Regs.ofArray (regWrite s.rf (controls x w).regWrite (rd w) _) = _
  cases (controls x w).regWrite with
  | true => exact ofArray_regWrite s.rf (rd w) (s.result x w readData)
  | false => rfl

end Registers

end Core

/-- Every legal instruction changes the registers as one RV32I step does, and
register 0 keeps reading zero. -/
theorem registers_step (x : Undef) {instr readData : Word} (s : Core) {mem : Word → Byte}
    {i : Instr} (legal : decode instr = some i) (loads : LoadOk (s.arch mem) readData i) :
    (∀ r, regRead (s.clock x instr readData).rf r = (execute (s.arch mem) i).regs.get r) ∧
      regRead (s.clock x instr readData).rf 0 = 0 := by
  have regs := Core.clock_regs x s (encodes_of_decode legal) loads
  refine ⟨fun r => ?_, rfl⟩
  rw [regRead_eq, regs]

/-- `lb x5, 1(x0)` takes the sign of byte 1 of the word read. -/
theorem registers_step_lb :
    decode 0x00100283 = some (.load .lb 5 0 1) ∧
      regRead (Core.clock default 0x00100283 0x00008000 ⟨0, fun _ => 0⟩).rf 5 = 0xFFFFFF80 := by
  have legal : decode 0x00100283 = some (.load .lb 5 0 1) := by decide
  have loads : LoadOk (Core.arch ⟨0, fun _ => 0⟩ (bytesOf (n := 30) fun _ => 0x00008000))
      0x00008000 (.load .lb 5 0 1) := by
    intro op d r1 imm same
    cases same
    exact ⟨by decide, rfl⟩
  exact ⟨legal, ((registers_step default ⟨0, fun _ => 0⟩ legal loads).1 5).trans rfl⟩

end RiscvLab.Single
