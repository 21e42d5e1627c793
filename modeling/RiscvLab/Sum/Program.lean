import RiscvLab.Rv32i.Blocks

/-!
# The function `sum`

project/sumtest/sum.S for 32-bit registers. It saves `s0` and `s1` on the stack, adds up the
numbers from 1 to the argument, and restores them before it returns.
-/
namespace RiscvLab.Sum
open RiscvLab.Lib.ByteMemory RiscvLab.Rv32i

abbrev x0 : Reg := 0
abbrev ra : Reg := 1
abbrev sp : Reg := 2
abbrev s0 : Reg := 8
abbrev s1 : Reg := 9
abbrev a0 : Reg := 10

/-- From `sum` to `for`. -/
def enterBlock : List Instr := [
  .imm .add sp sp (-8), -- make room to save s0 and s1 on the stack
  .store .sw sp s0 0,
  .store .sw sp s1 4,
  .imm .add s0 x0 0, -- result = 0
  .imm .add s1 x0 1] -- i = 1

/-- The loop behind its branch. -/
def addBlock : List Instr := [
  .reg .add s0 s0 s1, -- result = result + i
  .imm .add s1 s1 1] -- i++

/-- From `done` to the return. -/
def doneBlock : List Instr := [
  .imm .add a0 s0 0, -- put result in a0 to return
  .load .lw s0 sp 0, -- restore s0 and s1 from stack
  .load .lw s1 sp 4,
  .imm .add sp sp 8]

def sumProgram : List Instr :=
  enterBlock ++
  [.branch .blt a0 s1 16] ++ -- bgt s1, a0, done
  addBlock ++
  [.jal x0 (-12)] ++ -- j for
  doneBlock ++
  [.jalr x0 ra 0] -- ret

/-- The program without compressed instructions. -/
def sumWords : List Word := [
  0xff810113, 0x00812023, 0x00912223, 0x00000413, 0x00100493,
  0x00954863, 0x00940433, 0x00148493, 0xff5ff06f,
  0x00040513, 0x00012403, 0x00412483, 0x00810113, 0x00008067]

/-- The instruction memory that is loaded with it. -/
def sumImage (index : BitVec 30) : Word := sumWords[index.toNat]?.getD 0

theorem sumImage_placed : Placed sumImage 0 sumProgram := by
  have words : ∀ k < 14, (sumWords[k]?.bind decode) = sumProgram[k]? := by decide
  refine placed_of_words (show 14 < 2 ^ 30 by decide) fun k inside => ?_
  have line := words k inside
  rw [List.getElem?_eq_getElem inside] at line
  exact Option.bind_eq_some_iff.mp line

end RiscvLab.Sum
