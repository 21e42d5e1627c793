import RiscvLab.Rv32i.Blocks

/-!
# The multiplication program

The loop of lab2/riscvtest/mult.S. `s4` and `s3` are the upper and the lower word of the
product, `s2` and `s1` those of the multiplicand, and `s0` is the multiplier.
-/
namespace RiscvLab.Multiply
open RiscvLab.Lib.ByteMemory RiscvLab.Rv32i

abbrev x0 : Reg := 0
abbrev t0 : Reg := 5
abbrev s0 : Reg := 8
abbrev s1 : Reg := 9
abbrev s2 : Reg := 18
abbrev s3 : Reg := 19
abbrev s4 : Reg := 20

section Text

/-- The instructions of a taken multiplier bit. -/
def addBlock : List Instr := [
  .reg .add s3 s3 s1, -- lw (product) += lw (mcand)
  .reg .sltu t0 s3 s1, -- catch carry-out
  .reg .add s4 s4 t0, -- hw (product) += carry
  .reg .add s4 s4 s2] -- hw (product) += hw (mcand)

/-- From `next` on; `srl` and `sll` with a number are the immediate shifts. -/
def shiftBlock : List Instr := [
  .imm .srl t0 s1 31, -- copy bit from lw to hw
  .imm .sll s1 s1 1,
  .imm .sll s2 s2 1,
  .reg .add s2 s2 t0,
  .imm .srl s0 s0 1]

/-- From `loop` to `done`. -/
def multLoop : List Instr :=
  [.imm .and t0 s0 1, -- LSB (multiplier)
    .branch .beq t0 x0 20] ++ -- to next
  addBlock ++ shiftBlock ++
  [.branch .bne s0 x0 (-44)] -- to loop

end Text

section Image

/-- mult.memfile -/
def multWords : List Word := [
  0x00000093, 0x00000113, 0x00000193, 0x00000213, 0x00000293, 0x00000313, 0x00000393,
  0x00000413, 0x00000493, 0x00000513, 0x00000593, 0x00000613, 0x00000693, 0x00000713,
  0x00000793, 0x00000813, 0x00000893, 0x00000913, 0x00000993, 0x00000A13, 0x00000A93,
  0x00000B13, 0x00000B93, 0x00000C13, 0x00000C93, 0x00000D13, 0x00000D93, 0x00000E13,
  0x00000E93, 0x00000F13, 0x00000F93,
  0x813470B7, 0xFCA08093, 0x00008493, 0x17C3A137, 0x57110113, 0x00010413,
  0x00000293, 0x01F28293, 0x00000913,
  0x00147293, 0x00028A63, 0x009989B3, 0x0099B2B3, 0x005A0A33, 0x012A0A33,
  0x01F4D293, 0x00149493, 0x00191913, 0x00590933, 0x00145413, 0xFC041AE3,
  0x00000073]

/-- The instruction memory that is loaded with it. -/
def multImage (index : BitVec 30) : Word := multWords[index.toNat]?.getD 0

/-- In the image `loop` is at address 160. -/
theorem multImage_placed : Placed multImage 160 multLoop := by decide

end Image

end RiscvLab.Multiply
