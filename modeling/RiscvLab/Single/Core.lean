import RiscvLab.Hdl.Blocks
import RiscvLab.Lib.Run

/-!
# The single-cycle core

`riscvsingle` of lab2/hdl/riscv_single.sv, module by module, and `top` around it.
The ports of `controller` and `datapath` are connected with `ALUSrc` and `PCSrc`
exchanged in both instances, so each signal arrives where its name says.
-/
namespace RiscvLab.Single
open RiscvLab.Lib.ByteMemory RiscvLab.Lib.Run RiscvLab.Hdl

section Decoders

/-- Outputs of `maindec`, unpacked from `controls` in the source's order. -/
structure Controls where
  regWrite : Bool
  immSrc : BitVec 3
  aluSrc : Bool
  memWrite : Bool
  resultSrc : BitVec 2
  branch : Bool
  aluOp : BitVec 2
  jump : Bool
  jalrsig : Bool
  deriving DecidableEq, Repr

def Controls.ofBits (controls : BitVec 13) : Controls where
  regWrite := controls.getLsbD 12
  immSrc := controls.extractLsb' 9 3
  aluSrc := controls.getLsbD 8
  memWrite := controls.getLsbD 7
  resultSrc := controls.extractLsb' 5 2
  branch := controls.getLsbD 4
  aluOp := controls.extractLsb' 2 2
  jump := controls.getLsbD 1
  jalrsig := controls.getLsbD 0

def maindec (x : Undef) (op : BitVec 7) : Controls :=
  Controls.ofBits <| match op with
  -- RegWrite_ImmSrc_ALUSrc_MemWrite_ResultSrc_Branch_ALUOp_Jump_jalrsig
  | 0b0000011 => 0b1_000_1_0_01_0_00_0_0 -- lw
  | 0b0100011 => 0b0_001_1_1_00_0_00_0_0 -- sw
  | 0b0110011 => 0b1#1 ++ x.controls.extractLsb' 9 3 ++ 0b0_0_00_0_10_0_0#9 -- R-type
  | 0b1100011 => 0b0_010_0_0_00_1_01_0_0 -- branches
  | 0b0010011 => 0b1_000_1_0_00_0_10_0_0 -- I-type ALU
  | 0b1101111 => 0b1_011_0_0_10_0_00_1_0 -- jal
  | 0b0110111 => 0b1_100_1_0_00_0_11_0_0 -- lui
  | 0b0010111 => 0b1_100_1_0_11_0_11_0_0 -- auipc
  | 0b1100111 => 0b1_000_1_0_10_0_00_1_1 -- jalr
  | _ => x.controls

def aludec (x : Undef) (opb5 : Bool) (funct3 : BitVec 3) (funct7b5 : Bool) (aluOp : BitVec 2) :
    BitVec 4 :=
  let rtypeSub := funct7b5 && opb5
  match aluOp with
  | 0b00 => 0b0000 -- addition
  | 0b01 => 0b0001 -- subtraction
  | 0b11 => 0b1011 -- lui
  | _ => match funct3 with
    | 0b000 => if rtypeSub then 0b0001 else 0b0000 -- sub; add, addi
    | 0b010 => 0b0101 -- slt, slti
    | 0b110 => 0b0011 -- or, ori
    | 0b111 => 0b0010 -- and, andi
    | 0b100 => 0b0110 -- xor, xori
    | 0b001 => 0b0111 -- sll, slli
    | 0b011 => 0b1000 -- sltu, sltiu
    | 0b101 => if funct7b5 then 0b1010 else 0b1001 -- sra, srai; srl, srli
    | _ => x.aluControl

/-- `Branch_condition` of the controller; for the other codes nothing is assigned. -/
def branchCondition (x : Undef) (funct3 : BitVec 3) (flags : AluOut) : Bool :=
  match funct3 with
  | 0b000 => flags.zero
  | 0b001 => !flags.zero
  | 0b100 => flags.negative ^^ flags.v
  | 0b101 => !(flags.negative ^^ flags.v)
  | 0b110 => !flags.carry
  | 0b111 => flags.carry
  | _ => x.branch

end Decoders

def alu (x : Undef) (a b : Word) (alucontrol : BitVec 4) : AluOut :=
  aluOut a b alucontrol <| match alucontrol with
    | 0b0000 => (aluSum a b alucontrol).setWidth 32
    | 0b0001 => (aluSum a b alucontrol).setWidth 32
    | 0b0010 => a &&& b
    | 0b0011 => a ||| b
    | 0b0101 =>
      (BitVec.ofBool ((aluSum a b alucontrol).getLsbD 31 ^^ overflow a b alucontrol)).setWidth 32
    | 0b0110 => a ^^^ b
    | 0b0111 => a <<< (b.extractLsb' 0 5).toNat
    | 0b1000 => (BitVec.ofBool (a.ult b)).setWidth 32
    | 0b1010 => a.sshiftRight (b.extractLsb' 0 5).toNat
    | 0b1001 => a >>> (b.extractLsb' 0 5).toNat
    | 0b1011 => b
    | _ => x.alu

section MemoryUnits

/-- `Write_line` of a store. -/
def writeLine (x : Undef) (funct3 : BitVec 3) (aluResult readData origWriteData : Word) : Word :=
  match funct3 with
  | 0b000 => match aluResult.extractLsb' 0 2 with -- sb
    | 0b00 => readData.extractLsb' 8 24 ++ origWriteData.extractLsb' 0 8
    | 0b01 =>
      readData.extractLsb' 16 16 ++ origWriteData.extractLsb' 0 8 ++ readData.extractLsb' 0 8
    | 0b10 =>
      readData.extractLsb' 24 8 ++ origWriteData.extractLsb' 0 8 ++ readData.extractLsb' 0 16
    -- 33 bits, of which the assignment keeps the lower 32
    | _ => (origWriteData.extractLsb' 0 8 ++ readData.extractLsb' 0 25).setWidth 32
  | 0b001 => storeHalf x.storeLane readData (aluResult.extractLsb' 0 2) origWriteData
  | 0b010 => origWriteData -- sw
  | _ => x.storeLane

/-- `Load_line` of a load. -/
def loadLine (x : Undef) (funct3 : BitVec 3) (aluResult readData : Word) : Word :=
  match funct3 with
  | 0b000 => signedByte readData (aluResult.extractLsb' 0 2)
  | 0b001 => signedHalf x.loadLane readData (aluResult.extractLsb' 0 2)
  | 0b010 => readData -- lw
  | 0b100 => unsignedByte readData (aluResult.extractLsb' 0 2)
  | 0b101 => unsignedHalf x.loadLane readData (aluResult.extractLsb' 0 2)
  | _ => x.loadLane

end MemoryUnits

/-- The registers just after a rising edge. -/
structure Core where
  pc : Word
  rf : RegArray

namespace Core

section Signals

variable (x : Undef) (instr readData : Word) (s : Core)

def controls : Controls := maindec x (instr.extractLsb' 0 7)

def aluControl : BitVec 4 :=
  aludec x (instr.getLsbD 5) (instr.extractLsb' 12 3) (instr.getLsbD 30) (controls x instr).aluOp

def immExt : Word := extend x instr (controls x instr).immSrc

def srcA : Word := regRead s.rf (instr.extractLsb' 15 5)

def origWriteData : Word := regRead s.rf (instr.extractLsb' 20 5)

def srcB : Word := mux2 (s.origWriteData instr) (immExt x instr) (controls x instr).aluSrc

def alu : AluOut := Single.alu x (s.srcA instr) (s.srcB x instr) (aluControl x instr)

def aluResult : Word := (s.alu x instr).result

def pcPlus4 : Word := adder s.pc 4

def pcTarget : Word := adder s.pc (immExt x instr)

def pcSrc : Bool :=
  ((controls x instr).branch && branchCondition x (instr.extractLsb' 12 3) (s.alu x instr)) ||
    (controls x instr).jump

def pcNextTemp : Word := mux2 s.pcPlus4 (s.pcTarget x instr) (s.pcSrc x instr)

def pcNext : Word := mux2 (s.pcNextTemp x instr) (s.aluResult x instr) (controls x instr).jalrsig

/-- For instructions that are no loads `Load_line` keeps an old value, which nothing reads. -/
def loadLine : Word :=
  if instr.extractLsb' 0 7 = 0b0000011 then
    Single.loadLine x (instr.extractLsb' 12 3) (s.aluResult x instr) readData
  else x.loadLane

def result : Word :=
  mux4 (s.aluResult x instr) (s.loadLine x instr readData) s.pcPlus4 (s.pcTarget x instr)
    (controls x instr).resultSrc

def writeData : Word :=
  mux2 (s.origWriteData instr)
    (Single.writeLine x (instr.extractLsb' 12 3) (s.aluResult x instr) readData
      (s.origWriteData instr))
    (instr.extractLsb' 0 7 == 0b0100011)

/-- One clock cycle of `riscvsingle`. -/
def clock : Core where
  pc := s.pcNext x instr
  rf :=
    regWrite s.rf (controls x instr).regWrite (instr.extractLsb' 7 5) (s.result x instr readData)

end Signals

end Core

/-- Words in `imem`, `RAM[16384:0]`. -/
def imemDepth : Nat := 16385

/-- Words in `dmem`, `RAM[1028:0]`. -/
def dmemDepth : Nat := 1029

structure Top where
  core : Core
  dmem : Ram

namespace Top

section Signals

variable (imem : Ram) (x : Undef) (s : Top)

def instr : Word := ramRead imemDepth imem x.instr s.core.pc

def dataAdr : Word := s.core.aluResult x (s.instr imem x)

def readData : Word := ramRead dmemDepth s.dmem x.data (s.dataAdr imem x)

def writeData : Word := s.core.writeData x (s.instr imem x) (s.readData imem x)

def clock : Top where
  core := s.core.clock x (s.instr imem x) (s.readData imem x)
  dmem :=
    ramWrite dmemDepth s.dmem (Core.controls x (s.instr imem x)).memWrite (s.dataAdr imem x)
      (s.writeData imem x)

end Signals

def reset (rf : RegArray) (dmem : Ram) : Top := ⟨⟨0, rf⟩, dmem⟩

end Top

/-- The state in each clock cycle after reset. -/
def topRun (imem : Ram) (x : Nat → Undef) (rf : RegArray) (dmem : Ram) : Nat → Top :=
  run (Top.clock imem) x (Top.reset rf dmem)

end RiscvLab.Single
