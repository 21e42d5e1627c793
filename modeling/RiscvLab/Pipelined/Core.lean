import RiscvLab.Hdl.Blocks

/-!
# The pipelined core

`riscv` of lab3/hdl/riscv_pipelined.sv, module by module. A `Core` is the content
of all its registers just after a rising edge. The register file is written on
the falling edge, so decode reads the array as that edge leaves it.
The enable of the PC register is an input of `clock`: it is the only place where
the board version of the core computes the next state of a shared register
differently.
-/
namespace RiscvLab.Pipelined
open RiscvLab.Lib.ByteMemory RiscvLab.Hdl

section Decoders

/-- Outputs of `maindec`, unpacked from `controls` in the source's order. -/
structure Controls where
  regWrite : Bool
  immSrc : BitVec 3
  aluSrc : Bool
  memWrite : Bool
  resultSrc : BitVec 2
  branch : Bool
  aluOp : BitVec 2
  jump : Bool
  auipcSrc : Bool
  deriving DecidableEq, Repr

def Controls.ofBits (controls : BitVec 13) : Controls where
  regWrite := controls.getLsbD 12
  immSrc := controls.extractLsb' 9 3
  aluSrc := controls.getLsbD 8
  memWrite := controls.getLsbD 7
  resultSrc := controls.extractLsb' 5 2
  branch := controls.getLsbD 4
  aluOp := controls.extractLsb' 2 2
  jump := controls.getLsbD 1
  auipcSrc := controls.getLsbD 0

def maindec (x : Undef) (op : BitVec 7) : Controls :=
  Controls.ofBits <| match op with
  -- RegWrite_ImmSrc_ALUSrc_MemWrite_ResultSrc_Branch_ALUOp_Jump_auipcSrc
  | 0b0000011 => 0b1_000_1_0_01_0_00_0_0 -- lw
  | 0b0100011 => 0b0_001_1_1_00_0_00_0_0 -- sw
  | 0b0110011 => 0b1#1 ++ x.controls.extractLsb' 9 3 ++ 0b0_0_00_0_10_0_0#9 -- R-type
  | 0b1100011 => 0b0_010_0_0_00_1_01_0_0 -- beq
  | 0b0010011 => 0b1_000_1_0_00_0_10_0_0 -- I-type ALU
  | 0b1101111 => 0b1_011_0_0_10_0_00_1_0 -- jal
  | 0b0110111 => 0b1_100_1_0_11_0_1#10 ++ x.controls.extractLsb' 2 1 ++ 0b0_0#2 -- lui
  | 0b1100111 => 0b1_000_1_0_10_0_00_1_0 -- jalr
  | 0b0010111 => 0b1_100_1_0_00_0_00_0_1 -- auipc
  | 0b0000000 => 0b0_000_0_0_00_0_00_0_0 -- valid values at reset
  | _ => x.controls

def aludec (x : Undef) (opb5 : Bool) (funct3 : BitVec 3) (funct7b5 : Bool) (aluOp : BitVec 2) :
    BitVec 4 :=
  let rtypeSub := funct7b5 && opb5
  match aluOp with
  | 0b00 => 0b0000 -- addition
  | 0b01 => 0b0001 -- subtraction
  | _ => match funct3 with
    | 0b000 => if rtypeSub then 0b0001 else 0b0000 -- sub; add, addi
    | 0b010 => 0b0101 -- slt, slti
    | 0b110 => 0b0011 -- or, ori
    | 0b111 => 0b0010 -- and, andi
    | 0b100 => 0b0100 -- xor, xori
    | 0b001 => 0b1000 -- sll, slli
    | 0b011 => 0b1001 -- sltu, sltiu
    | 0b101 => if funct7b5 then 0b0110 else 0b0111 -- sra, srai; srl, srli
    | _ => x.aluControl

end Decoders

section Alu

def alu (x : Undef) (a b : Word) (alucontrol : BitVec 4) : AluOut :=
  aluOut a b alucontrol <| match alucontrol with
    | 0b0000 => (aluSum a b alucontrol).setWidth 32
    | 0b0001 => (aluSum a b alucontrol).setWidth 32
    | 0b0010 => a &&& b
    | 0b0011 => a ||| b
    | 0b0100 => a ^^^ condinvb b alucontrol
    | 0b0101 =>
      (BitVec.ofBool ((aluSum a b alucontrol).getLsbD 31 ^^ overflow a b alucontrol)).setWidth 32
    | 0b0110 => a.sshiftRight (b.extractLsb' 0 5).toNat
    | 0b0111 => a >>> (b.extractLsb' 0 5).toNat
    | 0b1000 => a <<< (b.extractLsb' 0 5).toNat
    | 0b1001 => (BitVec.ofBool (a.ult b)).setWidth 32
    | _ => x.alu

/-- `Branch_condition` of the controller. -/
def branchCondition (funct3E : BitVec 3) (flags : AluOut) : Bool :=
  match funct3E with
  | 0b000 => flags.zero
  | 0b001 => !flags.zero
  | 0b100 => flags.negative ^^ flags.v
  | 0b101 => !(flags.negative ^^ flags.v)
  | 0b110 => !flags.carry
  | 0b111 => flags.carry
  | _ => false

end Alu

section MemoryUnits

/-- Sign or zero extension of a lane of the word read. -/
def load (x : Undef) (regWrite aluSrc : Bool) (resultSrc : BitVec 2) (funct3 : BitVec 3)
    (dataAdr readData : Word) : Word :=
  if regWrite && aluSrc && resultSrc.getLsbD 0 && !resultSrc.getLsbD 1 then
    match funct3 with
    | 0b000 => signedByte readData (dataAdr.extractLsb' 0 2)
    | 0b001 => signedHalf x.loadLane readData (dataAdr.extractLsb' 0 2)
    | 0b010 => readData -- lw
    | 0b100 => unsignedByte readData (dataAdr.extractLsb' 0 2)
    | 0b101 => unsignedHalf x.loadLane readData (dataAdr.extractLsb' 0 2)
    | _ => readData
  else readData

/-- The word that a store writes: the word read with the stored lanes replaced. -/
def store (x : Undef) (memWrite : Bool) (funct3 : BitVec 3) (dataAdr readData rd2 : Word) : Word :=
  if memWrite then
    match funct3 with
    | 0b000 => match dataAdr.extractLsb' 0 2 with -- sb
      | 0b00 => readData.extractLsb' 8 24 ++ rd2.extractLsb' 0 8
      | 0b01 => readData.extractLsb' 16 16 ++ rd2.extractLsb' 0 8 ++ readData.extractLsb' 0 8
      | 0b10 => readData.extractLsb' 24 8 ++ rd2.extractLsb' 0 8 ++ readData.extractLsb' 0 16
      | _ => rd2.extractLsb' 0 8 ++ readData.extractLsb' 0 24
    | 0b001 => storeHalf x.storeLane readData (dataAdr.extractLsb' 0 2) rd2
    | _ => rd2
  else rd2

end MemoryUnits

section Registers

@[ext]
structure RegD where
  instrD : Word
  pcD : Word
  pcPlus4D : Word

structure ControlRegE where
  regWriteE : Bool
  resultSrcE : BitVec 2
  memWriteE : Bool
  jumpE : Bool
  branchE : Bool
  aluControlE : BitVec 4
  aluSrcE : Bool
  funct3E : BitVec 3
  opE : BitVec 7
  deriving DecidableEq, Repr

@[ext]
structure RegE where
  rd1E : Word
  rd2E : Word
  pcE : Word
  rs1E : BitVec 5
  rs2E : BitVec 5
  rdE : BitVec 5
  immExtE : Word
  pcPlus4E : Word
  funct3E : BitVec 3

@[ext]
structure ControlRegM where
  regWriteM : Bool
  resultSrcM : BitVec 2
  memWriteM : Bool

@[ext]
structure RegM where
  aluResultM : Word
  rdM : BitVec 5
  pcPlus4M : Word
  immExtM : Word
  aluSrcM : Bool
  funct3M : BitVec 3
  writeDataM : Word

@[ext]
structure RegW where
  aluResultW : Word
  dataW : Word
  rdW : BitVec 5
  pcPlus4W : Word
  immExtW : Word
  aluSrcW : Bool
  funct3W : BitVec 3
  resultSrcW : BitVec 2

def RegD.zero : RegD := ⟨0, 0, 0⟩
def ControlRegE.zero : ControlRegE := ⟨false, 0, false, false, false, 0, false, 0, 0⟩
def RegE.zero : RegE := ⟨0, 0, 0, 0, 0, 0, 0, 0, 0⟩
def ControlRegM.zero : ControlRegM := ⟨false, 0, false⟩
def RegM.zero : RegM := ⟨0, 0, 0, 0, false, 0, 0⟩
def RegW.zero : RegW := ⟨0, 0, 0, 0, 0, false, 0, 0⟩

/-- All registers of the core just after a rising edge. -/
@[ext]
structure Core where
  pcF : Word
  regD : RegD
  controlregE : ControlRegE
  regE : RegE
  controlregM : ControlRegM
  regM : RegM
  /-- `controlregW`, the single bit `RegWriteW`. -/
  regWriteW : Bool
  regW : RegW
  rf : RegArray

/-- The core while reset is asserted; the register file is not reset. -/
def Core.reset (rf : RegArray) : Core where
  pcF := 0
  regD := .zero
  controlregE := .zero
  regE := .zero
  controlregM := .zero
  regM := .zero
  regWriteW := false
  regW := .zero
  rf

end Registers

namespace Core

section Signals

variable (x : Undef) (s : Core)

-- Writeback

def resultW : Word :=
  mux4 s.regW.aluResultW s.regW.dataW s.regW.pcPlus4W s.regW.immExtW s.regW.resultSrcW

/-- The register file after the falling edge of the cycle. -/
def rfNegedge : RegArray := regWrite s.rf s.regWriteW s.regW.rdW s.resultW

-- Decode

def opD : BitVec 7 := s.regD.instrD.extractLsb' 0 7
def rs1D : BitVec 5 := s.regD.instrD.extractLsb' 15 5
def rs2D : BitVec 5 := s.regD.instrD.extractLsb' 20 5

-- Hazard unit: forwarding

def forwardAE : BitVec 2 :=
  if s.regE.rs1E ≠ 0 then
    if (s.regE.rs1E == s.regM.rdM) && s.controlregM.regWriteM then 0b10
    else if (s.regE.rs1E == s.regW.rdW) && s.regWriteW then 0b01
    else 0b00
  else 0b00

def forwardBE : BitVec 2 :=
  if s.regE.rs2E ≠ 0 then
    if (s.regE.rs2E == s.regM.rdM) && s.controlregM.regWriteM then 0b10
    else if (s.regE.rs2E == s.regW.rdW) && s.regWriteW then 0b01
    else 0b00
  else 0b00

-- Execute

def srcAE : Word := mux3 s.regE.rd1E s.resultW s.regM.aluResultM s.forwardAE
def writeDataE : Word := mux3 s.regE.rd2E s.resultW s.regM.aluResultM s.forwardBE
def srcBE : Word := mux2 s.writeDataE s.regE.immExtE s.controlregE.aluSrcE
def aluE : AluOut := alu x s.srcAE s.srcBE s.controlregE.aluControlE
def pcTargetE : Word := adder s.regE.immExtE s.regE.pcE
def jalrTarget : Word := s.srcAE + s.regE.immExtE

def pcSrc0 : Bool :=
  (s.controlregE.branchE && branchCondition s.controlregE.funct3E (s.aluE x)) ||
    s.controlregE.jumpE

def pcSrc1 : Bool :=
  match s.controlregE.opE with
  | 0b1100111 => true
  | _ => false

def pcSrcE : BitVec 2 := BitVec.ofBool s.pcSrc1 ++ BitVec.ofBool (s.pcSrc0 x)

-- Hazard unit: stalls and flushes

def lwStallD : Bool :=
  s.controlregE.resultSrcE.getLsbD 0 && (s.rs1D == s.regE.rdE || s.rs2D == s.regE.rdE)

def stallF : Bool := s.lwStallD
def stallD : Bool := s.lwStallD
def flushD : Bool := (s.pcSrcE x).getLsbD 0
def flushE : Bool := s.lwStallD || (s.pcSrcE x).getLsbD 0

-- Fetch

def pcPlus4F : Word := adder s.pcF 4
def pcNextF : Word := mux3 s.pcPlus4F s.pcTargetE s.jalrTarget (s.pcSrcE x)

-- Memory

def dataM (readDataM : Word) : Word :=
  load x s.controlregM.regWriteM s.regM.aluSrcM s.controlregM.resultSrcM s.regM.funct3M
    s.regM.aluResultM readDataM

def storeOutM (readDataM : Word) : Word :=
  store x s.controlregM.memWriteM s.regM.funct3M s.regM.aluResultM (s.dataM x readDataM)
    s.regM.writeDataM

end Signals

/-- Input of `controlregE`: the decoded control bits of an instruction. -/
def controlD (x : Undef) (instrD : Word) : ControlRegE :=
  let md := maindec x (instrD.extractLsb' 0 7)
  { regWriteE := md.regWrite
    resultSrcE := md.resultSrc
    memWriteE := md.memWrite
    jumpE := md.jump
    branchE := md.branch
    aluControlE :=
      aludec x (instrD.getLsbD 5) (instrD.extractLsb' 12 3) (instrD.getLsbD 30) md.aluOp
    aluSrcE := md.aluSrc
    funct3E := instrD.extractLsb' 12 3
    opE := instrD.extractLsb' 0 7 }

/-- Input of `regE`: the operands of the instruction in decode, read from `rf`. -/
def dataD (x : Undef) (rf : RegArray) (d : RegD) : RegE :=
  let md := maindec x (d.instrD.extractLsb' 0 7)
  { rd1E := mux2 (regRead rf (d.instrD.extractLsb' 15 5)) d.pcD md.auipcSrc
    rd2E := regRead rf (d.instrD.extractLsb' 20 5)
    pcE := d.pcD
    rs1E := d.instrD.extractLsb' 15 5
    rs2E := d.instrD.extractLsb' 20 5
    rdE := d.instrD.extractLsb' 7 5
    immExtE := extend x d.instrD md.immSrc
    pcPlus4E := d.pcPlus4D
    funct3E := d.instrD.extractLsb' 12 3 }

section Drained

variable (x : Undef) (readDataM : Word) (s : Core)

/-- The value that the instruction in M will write back. -/
def resultM : Word :=
  mux4 s.regM.aluResultM (s.dataM x readDataM) s.regM.pcPlus4M s.regM.immExtM
    s.controlregM.resultSrcM

/-- The register file once the instructions now in W and M have written back. -/
def drainedRf : RegArray :=
  regWrite s.rfNegedge s.controlregM.regWriteM s.regM.rdM (s.resultM x readDataM)

end Drained

/-- One clock cycle: the falling edge, then the next rising edge. -/
def clock (x : Undef) (pcEnable : Bool) (instrF readDataM : Word) (s : Core) : Core where
  pcF := flopenr pcEnable (s.pcNextF x) s.pcF
  regD := flopenrc .zero (s.flushD x) (!s.stallD) ⟨instrF, s.pcF, s.pcPlus4F⟩ s.regD
  controlregE := floprc .zero (s.flushE x) (controlD x s.regD.instrD)
  regE := floprc .zero (s.flushE x) (dataD x s.rfNegedge s.regD)
  controlregM :=
    { regWriteM := s.controlregE.regWriteE
      resultSrcM := s.controlregE.resultSrcE
      memWriteM := s.controlregE.memWriteE }
  regM :=
    { aluResultM := (s.aluE x).result
      rdM := s.regE.rdE
      pcPlus4M := s.regE.pcPlus4E
      immExtM := s.regE.immExtE
      aluSrcM := s.controlregE.aluSrcE
      funct3M := s.regE.funct3E
      writeDataM := s.writeDataE }
  regWriteW := s.controlregM.regWriteM
  regW :=
    { aluResultW := s.regM.aluResultM
      dataW := s.dataM x readDataM
      rdW := s.regM.rdM
      pcPlus4W := s.regM.pcPlus4M
      immExtW := s.regM.immExtM
      aluSrcW := s.regM.aluSrcM
      funct3W := s.regM.funct3M
      resultSrcW := s.controlregM.resultSrcM }
  rf := s.rfNegedge

end Core

end RiscvLab.Pipelined
