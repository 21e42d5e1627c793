import RiscvLab.Board.MemControl
import RiscvLab.Single.Registers

/-!
# The single-cycle core on the board

`top` of lab2/lab2/src: the core of lab2_submission/riscv_single_vivado.sv with
`MemControl` between it and the AXI converter. The datapath is that of the simulated
core but for the enable of its PC register; the main decoder has one more output.
Where the instance of the controller lists `Carry. Overflow`, both flags are connected.
`MemControl` is clocked on the falling edge, in the middle of a cycle of the core.
-/
namespace RiscvLab.SingleBoard
open RiscvLab.Lib.ByteMemory RiscvLab.Lib.Run RiscvLab.Hdl RiscvLab.Rv32i RiscvLab.Single
open RiscvLab.Board (MemState)

/-- Inputs of one clock cycle. `doneM` is read on the falling edge; `readDataM`
changes on rising edges only. `strobe` is the `x` of the 14th control bit. -/
structure Input where
  undef : Undef
  strobe : Bool
  doneM : Bool
  readDataM : Word
  deriving Inhabited

/-- `controls` of `maindec`. -/
def maindecBits (input : Input) (op : BitVec 7) : BitVec 14 :=
  match op with
  -- RegWrite_ImmSrc_ALUSrc_MemWrite_ResultSrc_Branch_ALUOp_Jump_jalrsig_MemStrobe
  | 0b0000011 => 0b1_000_1_0_01_0_00_0_0_1 -- lw
  | 0b0100011 => 0b0_001_1_1_00_0_00_0_0_1 -- sw
  | 0b0110011 => 0b1#1 ++ input.undef.controls.extractLsb' 9 3 ++ 0b0_0_00_0_10_0_0_0#10 -- R-type
  | 0b1100011 => 0b0_010_0_0_00_1_01_0_0_0 -- branches
  | 0b0010011 => 0b1_000_1_0_00_0_10_0_0_0 -- I-type ALU
  | 0b1101111 => 0b1_011_0_0_10_0_00_1_0_0 -- jal
  | 0b0110111 => 0b1_100_1_0_00_0_11_0_0_0 -- lui
  | 0b0010111 => 0b1_100_1_0_11_0_11_0_0_0 -- auipc
  | 0b1100111 => 0b1_000_1_0_10_0_00_1_1_0 -- jalr
  | _ => input.undef.controls ++ BitVec.ofBool input.strobe

/-- The upper 13 control bits, in the order of the simulated core. -/
def controls (input : Input) (instr : Word) : Controls :=
  Controls.ofBits ((maindecBits input (instr.extractLsb' 0 7)).extractLsb' 1 13)

def memStrobe (input : Input) (instr : Word) : Bool :=
  (maindecBits input (instr.extractLsb' 0 7)).getLsbD 0

/-- Every bit of an opcode without a row is open. -/
theorem maindec_other (x : Undef) {op : BitVec 7} (n1 : op ≠ 0b0000011) (n2 : op ≠ 0b0100011)
    (n3 : op ≠ 0b0110011) (n4 : op ≠ 0b1100011) (n5 : op ≠ 0b0010011) (n6 : op ≠ 0b1101111)
    (n7 : op ≠ 0b0110111) (n8 : op ≠ 0b0010111) (n9 : op ≠ 0b1100111) :
    maindec x op = Controls.ofBits x.controls := by
  unfold maindec
  split
  exacts [(n1 rfl).elim, (n2 rfl).elim, (n3 rfl).elim, (n4 rfl).elim, (n5 rfl).elim,
    (n6 rfl).elim, (n7 rfl).elim, (n8 rfl).elim, (n9 rfl).elim, rfl]

/-- The two decoders agree on the bits that they share. -/
theorem controls_eq (input : Input) (instr : Word) :
    controls input instr = Core.controls input.undef instr := by
  have open3 : ∀ u : BitVec 3, (0b1#1 ++ u ++ 0b0_0_00_0_10_0_0_0#10).extractLsb' 1 13 =
      0b1#1 ++ u ++ 0b0_0_00_0_10_0_0#9 := by decide
  have open13 : ∀ (u : BitVec 13) (b : Bool), (u ++ BitVec.ofBool b).extractLsb' 1 13 = u := by
    intro u b
    ext i hi
    rw [BitVec.getElem_extractLsb', BitVec.getLsbD_append, if_neg (by omega)]
    simp [hi]
  rw [controls, Core.controls]
  generalize instr.extractLsb' 0 7 = op
  unfold maindecBits
  split
  case h_3 => exact congrArg Controls.ofBits (open3 _)
  case h_10 n1 n2 n3 n4 n5 n6 n7 n8 n9 =>
    exact (congrArg Controls.ofBits (open13 _ _)).trans
      (maindec_other input.undef n1 n2 n3 n4 n5 n6 n7 n8 n9).symm
  all_goals rfl

/-- The registers just after a rising edge. -/
structure Top where
  core : Core
  memControl : MemState

/-- The state when reset is released, before the falling edge of a cycle. -/
def Top.reset (rf : RegArray) : Top := ⟨⟨0, rf⟩, .idle⟩

namespace Top

section Signals

variable (imem : Ram) (input : Input) (s : Top)

/-- The program is read at every word address, of which `imem` has the first 64. -/
def instr : Word := imem (wordIndex s.core.pc)

def addressM : Word := s.core.aluResult input.undef (s.instr imem)

def writeDataM : Word := s.core.writeData input.undef (s.instr imem) input.readDataM

/-- `MemControl` after the falling edge of the cycle. -/
def memControlNegedge : MemState :=
  s.memControl.next (memStrobe input (s.instr imem)) (controls input (s.instr imem)).memWrite
    input.doneM

def pcReady : Bool := (s.memControlNegedge imem input).done

/-- `AXIStart` rises on the falling edge of the cycle. -/
def starts : Bool := (s.memControlNegedge imem input).axiStart

def clock : Top where
  core :=
    { pc := flopenr (s.pcReady imem input) (s.core.pcNext input.undef (s.instr imem)) s.core.pc
      rf := regWrite s.core.rf (controls input (s.instr imem)).regWrite
        ((s.instr imem).extractLsb' 7 5)
        (s.core.result input.undef (s.instr imem) input.readDataM) }
  memControl := s.memControlNegedge imem input

end Signals

/-- The instruction that the core works on. -/
def executes (imem : Ram) (s : Top) : Option Instr := decode (s.instr imem)

end Top

/-- The state in each clock cycle after reset. -/
def topRun (imem : Ram) (input : Nat → Input) (rf : RegArray) : Nat → Top :=
  run (Top.clock imem) input (Top.reset rf)

section Decoded

variable (input : Input) {w : Word} {i : Instr}

def isStore : Instr → Bool
  | .store .. => true
  | _ => false

def isMemory : Instr → Bool
  | .load .. | .store .. => true
  | _ => false

/-- `MemStrobe` marks the loads and stores. -/
theorem memStrobe_decoded (h : Encodes w i) : memStrobe input w = isMemory i := by
  change (maindecBits input (opcode w)).getLsbD 0 = _
  have open3 : ∀ u : BitVec 3,
      (0b1#1 ++ u ++ 0b0_0_00_0_10_0_0_0#10).getLsbD 0 = false := by decide
  cases i <;> rw [h.1]
  case reg => exact open3 _
  all_goals simp [maindecBits, isMemory]

theorem memWrite_decoded (h : Encodes w i) : (controls input w).memWrite = isStore i := by
  rw [controls_eq]
  refine (congrArg Decoded.memWrite (Core.controls_decoded input.undef h)).trans ?_
  cases i <;> rfl

theorem regWrite_decoded (h : Encodes w i) :
    (controls input w).regWrite = (Single.decoded i).regWrite := by
  rw [controls_eq]
  exact congrArg Decoded.regWrite (Core.controls_decoded input.undef h)

end Decoded

end RiscvLab.SingleBoard
