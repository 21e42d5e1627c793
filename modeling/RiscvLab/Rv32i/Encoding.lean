import RiscvLab.Lib.ByteMemory

/-!
# RV32I user-level encodings

The instruction formats and the legal encodings of the loads, stores, register
and immediate arithmetic, branches, jumps, `lui` and `auipc`. This is the
architecture the cores are compared with; nothing here is read off their HDL.
-/
namespace RiscvLab.Rv32i
open RiscvLab.Lib.ByteMemory

abbrev Reg := BitVec 5

section Fields

variable (instr : Word)

def opcode : BitVec 7 := instr.extractLsb' 0 7
def rd : Reg := instr.extractLsb' 7 5
def funct3 : BitVec 3 := instr.extractLsb' 12 3
def rs1 : Reg := instr.extractLsb' 15 5
def rs2 : Reg := instr.extractLsb' 20 5
def funct7 : BitVec 7 := instr.extractLsb' 25 7

def immI : Word := (instr.extractLsb' 20 12).signExtend 32

def immS : Word := (instr.extractLsb' 25 7 ++ instr.extractLsb' 7 5).signExtend 32

def immB : Word :=
  (instr.extractLsb' 31 1 ++ instr.extractLsb' 7 1 ++ instr.extractLsb' 25 6 ++
    instr.extractLsb' 8 4 ++ 0#1).signExtend 32

def immU : Word := instr.extractLsb' 12 20 ++ 0#12

def immJ : Word :=
  (instr.extractLsb' 31 1 ++ instr.extractLsb' 12 8 ++ instr.extractLsb' 20 1 ++
    instr.extractLsb' 21 10 ++ 0#1).signExtend 32

/-- Bit 5 of a word belongs to its opcode, bit 30 to its `funct7`. -/
theorem bit5_eq : instr.getLsbD 5 = (opcode instr).getLsbD 5 := by
  simp [opcode]

theorem bit30_eq : instr.getLsbD 30 = (funct7 instr).getLsbD 5 := by
  simp [funct7]

end Fields

inductive LoadOp where
  | lb | lh | lw | lbu | lhu
  deriving DecidableEq, Repr

inductive StoreOp where
  | sb | sh | sw
  deriving DecidableEq, Repr

inductive AluOp where
  | add | sub | sll | slt | sltu | xor | srl | sra | or | and
  deriving DecidableEq, Repr

inductive BranchOp where
  | beq | bne | blt | bge | bltu | bgeu
  deriving DecidableEq, Repr

inductive Instr where
  | load (op : LoadOp) (rd rs1 : Reg) (imm : Word)
  | store (op : StoreOp) (rs1 rs2 : Reg) (imm : Word)
  | reg (op : AluOp) (rd rs1 rs2 : Reg)
  | imm (op : AluOp) (rd rs1 : Reg) (imm : Word)
  | branch (op : BranchOp) (rs1 rs2 : Reg) (imm : Word)
  | jal (rd : Reg) (imm : Word)
  | jalr (rd rs1 : Reg) (imm : Word)
  | lui (rd : Reg) (imm : Word)
  | auipc (rd : Reg) (imm : Word)
  deriving DecidableEq, Repr

/-- The immediate operand; register arithmetic has none. -/
def immOf : Instr → Option Word
  | .load _ _ _ imm | .store _ _ _ imm | .imm _ _ _ imm | .branch _ _ _ imm => some imm
  | .jal _ imm | .jalr _ _ imm | .lui _ imm | .auipc _ imm => some imm
  | .reg .. => none

def loadOp : BitVec 3 → Option LoadOp
  | 0b000 => some .lb
  | 0b001 => some .lh
  | 0b010 => some .lw
  | 0b100 => some .lbu
  | 0b101 => some .lhu
  | _ => none

def storeOp : BitVec 3 → Option StoreOp
  | 0b000 => some .sb
  | 0b001 => some .sh
  | 0b010 => some .sw
  | _ => none

def branchOp : BitVec 3 → Option BranchOp
  | 0b000 => some .beq
  | 0b001 => some .bne
  | 0b100 => some .blt
  | 0b101 => some .bge
  | 0b110 => some .bltu
  | 0b111 => some .bgeu
  | _ => none

/-- Register arithmetic: `funct7` is zero but for `sub` and `sra`. -/
def regOp (funct3 : BitVec 3) (funct7 : BitVec 7) : Option AluOp :=
  if funct7 = 0b0000000 then
    match funct3 with
    | 0b000 => some .add
    | 0b001 => some .sll
    | 0b010 => some .slt
    | 0b011 => some .sltu
    | 0b100 => some .xor
    | 0b101 => some .srl
    | 0b110 => some .or
    | 0b111 => some .and
    | _ => none
  else if funct7 = 0b0100000 then
    match funct3 with
    | 0b000 => some .sub
    | 0b101 => some .sra
    | _ => none
  else none

/-- Immediate arithmetic: only the shifts constrain the upper seven bits. -/
def immOp (funct3 : BitVec 3) (funct7 : BitVec 7) : Option AluOp :=
  match funct3 with
  | 0b000 => some .add
  | 0b001 => if funct7 = 0b0000000 then some .sll else none
  | 0b010 => some .slt
  | 0b011 => some .sltu
  | 0b100 => some .xor
  | 0b101 =>
    if funct7 = 0b0000000 then some .srl
    else if funct7 = 0b0100000 then some .sra
    else none
  | 0b110 => some .or
  | 0b111 => some .and
  | _ => none

/-- The instruction a word encodes, if it is one of the supported ones. -/
def decode (w : Word) : Option Instr :=
  match opcode w with
  | 0b0000011 => (loadOp (funct3 w)).map (.load · (rd w) (rs1 w) (immI w))
  | 0b0100011 => (storeOp (funct3 w)).map (.store · (rs1 w) (rs2 w) (immS w))
  | 0b0110011 => (regOp (funct3 w) (funct7 w)).map (.reg · (rd w) (rs1 w) (rs2 w))
  | 0b0010011 => (immOp (funct3 w) (funct7 w)).map (.imm · (rd w) (rs1 w) (immI w))
  | 0b1100011 => (branchOp (funct3 w)).map (.branch · (rs1 w) (rs2 w) (immB w))
  | 0b1101111 => some (.jal (rd w) (immJ w))
  | 0b1100111 => if funct3 w = 0 then some (.jalr (rd w) (rs1 w) (immI w)) else none
  | 0b0110111 => some (.lui (rd w) (immU w))
  | 0b0010111 => some (.auipc (rd w) (immU w))
  | _ => none

/-- The fields a word has when it encodes an instruction. -/
def Encodes (w : Word) : Instr → Prop
  | .load op d r1 imm => opcode w = 0b0000011 ∧ loadOp (funct3 w) = some op ∧
      d = rd w ∧ r1 = rs1 w ∧ imm = immI w
  | .store op r1 r2 imm => opcode w = 0b0100011 ∧ storeOp (funct3 w) = some op ∧
      r1 = rs1 w ∧ r2 = rs2 w ∧ imm = immS w
  | .reg op d r1 r2 => opcode w = 0b0110011 ∧ regOp (funct3 w) (funct7 w) = some op ∧
      d = rd w ∧ r1 = rs1 w ∧ r2 = rs2 w
  | .imm op d r1 imm => opcode w = 0b0010011 ∧ immOp (funct3 w) (funct7 w) = some op ∧
      d = rd w ∧ r1 = rs1 w ∧ imm = immI w
  | .branch op r1 r2 imm => opcode w = 0b1100011 ∧ branchOp (funct3 w) = some op ∧
      r1 = rs1 w ∧ r2 = rs2 w ∧ imm = immB w
  | .jal d imm => opcode w = 0b1101111 ∧ d = rd w ∧ imm = immJ w
  | .jalr d r1 imm => opcode w = 0b1100111 ∧ funct3 w = 0 ∧ d = rd w ∧ r1 = rs1 w ∧ imm = immI w
  | .lui d imm => opcode w = 0b0110111 ∧ d = rd w ∧ imm = immU w
  | .auipc d imm => opcode w = 0b0010111 ∧ d = rd w ∧ imm = immU w

theorem encodes_of_decode {w : Word} {i : Instr} (h : decode w = some i) : Encodes w i := by
  unfold decode at h
  split at h
  next op =>
    obtain ⟨kind, hk, rfl⟩ := Option.map_eq_some_iff.mp h
    exact ⟨op, hk, rfl, rfl, rfl⟩
  next op =>
    obtain ⟨kind, hk, rfl⟩ := Option.map_eq_some_iff.mp h
    exact ⟨op, hk, rfl, rfl, rfl⟩
  next op =>
    obtain ⟨kind, hk, rfl⟩ := Option.map_eq_some_iff.mp h
    exact ⟨op, hk, rfl, rfl, rfl⟩
  next op =>
    obtain ⟨kind, hk, rfl⟩ := Option.map_eq_some_iff.mp h
    exact ⟨op, hk, rfl, rfl, rfl⟩
  next op =>
    obtain ⟨kind, hk, rfl⟩ := Option.map_eq_some_iff.mp h
    exact ⟨op, hk, rfl, rfl, rfl⟩
  next op =>
    cases h
    exact ⟨op, rfl, rfl⟩
  next op =>
    split at h
    next hf =>
      cases h
      exact ⟨op, hf, rfl, rfl, rfl⟩
    next => cases h
  next op =>
    cases h
    exact ⟨op, rfl, rfl⟩
  next op =>
    cases h
    exact ⟨op, rfl, rfl⟩
  next => cases h

end RiscvLab.Rv32i
