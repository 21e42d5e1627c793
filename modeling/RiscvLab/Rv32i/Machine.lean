import RiscvLab.Rv32i.Encoding
import RiscvLab.Lib.Run

/-!
# The sequential RV32I machine

One instruction at a time: program counter, integer registers and a
byte-addressed little-endian data memory. The effects of an instruction (the
register write, the store, the next program counter) are functions of their own,
so that a core can be compared with each of them.
-/
namespace RiscvLab.Rv32i
open RiscvLab.Lib.ByteMemory RiscvLab.Lib.Run

/-- A register file whose register 0 reads zero. -/
structure Regs where
  get : Reg → Word
  x0 : get 0 = 0

attribute [simp] Regs.x0

@[ext] theorem Regs.ext {a b : Regs} (h : ∀ r, a.get r = b.get r) : a = b := by
  cases a
  cases b
  congr
  exact funext h

/-- The registers that a 32-entry array stands for when register 0 is hardwired. -/
def Regs.ofArray (array : Reg → Word) : Regs where
  get r := if r = 0 then 0 else array r
  x0 := by simp

/-- Write a register; a write to register 0 is lost. -/
def Regs.set (regs : Regs) (rd : Reg) (value : Word) : Regs where
  get r := if r = rd ∧ rd ≠ 0 then value else regs.get r
  x0 := by
    have lost : ¬ (0 = rd ∧ rd ≠ 0) := fun h => h.2 h.1.symm
    rw [if_neg lost, regs.x0]

structure Arch where
  pc : Word
  regs : Regs
  mem : Word → Byte

def aluResult (op : AluOp) (a b : Word) : Word :=
  match op with
  | .add => a + b
  | .sub => a - b
  | .sll => a <<< (b.toNat % 32)
  | .slt => if a.slt b then 1 else 0
  | .sltu => if a.ult b then 1 else 0
  | .xor => a ^^^ b
  | .srl => a >>> (b.toNat % 32)
  | .sra => a.sshiftRight (b.toNat % 32)
  | .or => a ||| b
  | .and => a &&& b

def branchTaken (op : BranchOp) (a b : Word) : Bool :=
  match op with
  | .beq => a == b
  | .bne => a != b
  | .blt => a.slt b
  | .bge => !a.slt b
  | .bltu => a.ult b
  | .bgeu => !a.ult b

def loadResult (op : LoadOp) (mem : Word → Byte) (a : Word) : Word :=
  match op with
  | .lb => (mem a).signExtend 32
  | .lh => (mem (a + 1) ++ mem a).signExtend 32
  | .lw => mem (a + 3) ++ mem (a + 2) ++ mem (a + 1) ++ mem a
  | .lbu => (mem a).setWidth 32
  | .lhu => (mem (a + 1) ++ mem a).setWidth 32

def LoadOp.size : LoadOp → Nat
  | .lb | .lbu => 1
  | .lh | .lhu => 2
  | .lw => 4

def StoreOp.size : StoreOp → Nat
  | .sb => 1
  | .sh => 2
  | .sw => 4

section Effects

variable (s : Arch)

/-- The register an instruction writes, and the value. -/
def regResult : Instr → Option (Reg × Word)
  | .load op rd rs1 imm => some (rd, loadResult op s.mem (s.regs.get rs1 + imm))
  | .store .. => none
  | .reg op rd rs1 rs2 => some (rd, aluResult op (s.regs.get rs1) (s.regs.get rs2))
  | .imm op rd rs1 imm => some (rd, aluResult op (s.regs.get rs1) imm)
  | .branch .. => none
  | .jal rd _ => some (rd, s.pc + 4)
  | .jalr rd _ _ => some (rd, s.pc + 4)
  | .lui rd imm => some (rd, imm)
  | .auipc rd imm => some (rd, s.pc + imm)

/-- The data memory after an instruction. -/
def memResult : Instr → Word → Byte
  | .store op rs1 rs2 imm =>
    storeBytes (n := 30) s.mem (s.regs.get rs1 + imm) op.size (s.regs.get rs2)
  | _ => s.mem

/-- Whether an instruction redirects the program counter. -/
def taken : Instr → Bool
  | .branch op rs1 rs2 _ => branchTaken op (s.regs.get rs1) (s.regs.get rs2)
  | .jal .. | .jalr .. => true
  | _ => false

/-- The address a `jalr` adds up, before its lowest bit is cleared. -/
def jalrSum (rs1 : Reg) (imm : Word) : Word := s.regs.get rs1 + imm

def nextPc (i : Instr) : Word :=
  match i with
  | .branch _ _ _ imm => if taken s i then s.pc + imm else s.pc + 4
  | .jal _ imm => s.pc + imm
  | .jalr _ rs1 imm => jalrSum s rs1 imm &&& ~~~1
  | _ => s.pc + 4

/-- Size and address of the data access, if there is one. -/
def access : Instr → Option (Nat × Word)
  | .load op _ rs1 imm => some (op.size, s.regs.get rs1 + imm)
  | .store op rs1 _ imm => some (op.size, s.regs.get rs1 + imm)
  | _ => none

def execute (i : Instr) : Arch where
  pc := nextPc s i
  regs := match regResult s i with
    | some (rd, value) => s.regs.set rd value
    | none => s.regs
  mem := memResult s i

/-- The register write as an event; writes to register 0 are none. -/
def regEvents (i : Instr) : List (Reg × Word) :=
  match regResult s i with
  | some (rd, value) => if rd = 0 then [] else [(rd, value)]
  | none => []

/-- The store as an event: the word's index and its new value. -/
def memEvents (i : Instr) : List (BitVec 30 × Word) :=
  match i with
  | .store _ rs1 _ imm =>
    let index := (s.regs.get rs1 + imm).extractLsb' 2 30
    [(index, wordAt (n := 30) (memResult s i) index)]
  | _ => []

end Effects

section LowBit

/-- The sum of a `jalr` is even, so that there is no low bit to clear. -/
def JalrEven (a : Arch) (i : Instr) : Prop :=
  ∀ d r1 imm, i = .jalr d r1 imm → (jalrSum a r1 imm).getLsbD 0 = false

theorem low_bit_cleared (v : Word) : (v &&& ~~~1).getLsbD 0 = false := by
  simp

theorem clear_low_bit_iff {v : Word} : v &&& ~~~1 = v ↔ v.getLsbD 0 = false := by
  refine ⟨fun same => same ▸ low_bit_cleared v, fun even => ?_⟩
  ext k hk
  have mask : (1 : Word)[k] = decide (k = 0) := BitVec.getElem_one hk
  rw [BitVec.getElem_and, BitVec.getElem_not, mask]
  by_cases low : k = 0
  · subst low
    simpa using even
  · simp only [low, decide_false, Bool.not_false, Bool.and_true]

end LowBit

section Run

variable (imem : BitVec 30 → Word)

def fetch (s : Arch) : Option Instr := decode (imem (s.pc.extractLsb' 2 30))

/-- One instruction. The machine stops where no supported one is encoded. -/
def step (s : Arch) : Arch :=
  match fetch imem s with
  | some i => execute s i
  | none => s

/-- The state before the `k`-th instruction. -/
def seqRun (init : Arch) : Nat → Arch := run (fun _ : Unit => step imem) (fun _ => ()) init

/-- The register writes of the first `k` instructions. -/
def regTrace (init : Arch) : Nat → List (Reg × Word) :=
  trace (fun _ s => ((fetch imem s).map (regEvents s)).getD []) (fun _ : Unit => step imem)
    (fun _ => ()) init

/-- The memory writes of the first `k` instructions. -/
def memTrace (init : Arch) : Nat → List (BitVec 30 × Word) :=
  trace (fun _ s => ((fetch imem s).map (memEvents s)).getD []) (fun _ : Unit => step imem)
    (fun _ => ()) init

variable {imem} {init : Arch} {k : Nat} {i : Instr}

theorem seqRun_succ (legal : fetch imem (seqRun imem init k) = some i) :
    seqRun imem init (k + 1) = execute (seqRun imem init k) i := by
  change step imem (seqRun imem init k) = _
  rw [step, legal]

theorem regTrace_succ (legal : fetch imem (seqRun imem init k) = some i) :
    regTrace imem init (k + 1) = regTrace imem init k ++ regEvents (seqRun imem init k) i := by
  change _ ++ ((fetch imem (seqRun imem init k)).map (regEvents _)).getD [] = _
  rw [legal]
  rfl

theorem memTrace_succ (legal : fetch imem (seqRun imem init k) = some i) :
    memTrace imem init (k + 1) = memTrace imem init k ++ memEvents (seqRun imem init k) i := by
  change _ ++ ((fetch imem (seqRun imem init k)).map (memEvents _)).getD [] = _
  rw [legal]
  rfl

end Run

end RiscvLab.Rv32i
