import RiscvLab.Rv32i.Blocks

/-!
# The Fibonacci program

lab2/riscvtest/fib.S, which the boards run. The number of steps stands in the second
instruction, 0x26 in the source; here it is a parameter.
-/
namespace RiscvLab.Fib
open RiscvLab.Lib.ByteMemory RiscvLab.Rv32i

abbrev x0 : Reg := 0
abbrev t0 : Reg := 5
abbrev t1 : Reg := 6
abbrev t2 : Reg := 7
abbrev a0 : Reg := 10
abbrev t3 : Reg := 28
abbrev t4 : Reg := 29

section Text

/-- From `fib` to `fib_helper`. -/
def initBlock (n : Word) : List Instr := [
  .imm .add t4 x0 0x104, -- Base Address
  .imm .add t3 x0 n, -- the value of n for F[n]
  .imm .add t2 x0 0,
  .imm .add t1 x0 1, -- F[1] = 1
  .imm .add t0 x0 0] -- F[0] = 0

/-- The loop behind its branch. -/
def helperBlock : List Instr := [
  .reg .add t2 t1 t0, -- F[n] = F[n-1] + F[n-2]
  .imm .add t0 t1 0, -- mv t0, t1
  .imm .add t1 t2 0, -- mv t1, t2
  .imm .add t3 t3 (-1)]

/-- From `finish` to the `ecall`. -/
def finishBlock : List Instr := [
  .store .sw t4 t0 0,
  .store .sw t4 t1 4,
  .load .lw a0 t4 0]

def fibProgram (n : Word) : List Instr :=
  initBlock n ++
  [.branch .beq t3 x0 24] ++ -- to finish
  helperBlock ++
  [.jal x0 (-20)] ++ -- to fib_helper
  finishBlock

end Text

section Image

/-- fib.memfile with a number of steps of twelve bits. -/
def fibWords (n : BitVec 12) : List Word := [
  0x10400e93, n ++ 0xe13#20, 0x00000393, 0x00100313, 0x00000293,
  0x000e0c63, 0x005303b3, 0x00030293, 0x00038313, 0xfffe0e13, 0xfedff06f,
  0x005ea023, 0x006ea223, 0x000ea503, 0x00000073]

/-- The instruction memory that is loaded with it. -/
def fibImage (n : BitVec 12) (index : BitVec 30) : Word := (fibWords n)[index.toNat]?.getD 0

/-- A field below the immediate. -/
theorem low_field {start len : Nat} (n : BitVec 12) (c : BitVec 20) (below : start + len ≤ 20) :
    (n ++ c).extractLsb' start len = c.extractLsb' start len := by
  ext i hi
  rw [BitVec.getElem_extractLsb', BitVec.getElem_extractLsb', BitVec.getLsbD_append,
    if_pos (by omega)]

/-- `addi t3, x0, n` -/
theorem decode_count (n : BitVec 12) :
    decode (n ++ 0xe13#20) = some (.imm .add t3 x0 (n.signExtend 32)) := by
  have op : opcode (n ++ 0xe13#20) = 0b0010011 := low_field n _ (by decide)
  have f3 : funct3 (n ++ 0xe13#20) = 0b000 := low_field n _ (by decide)
  have dest : rd (n ++ 0xe13#20) = t3 := low_field n _ (by decide)
  have source : rs1 (n ++ 0xe13#20) = x0 := low_field n _ (by decide)
  have value : immI (n ++ 0xe13#20) = n.signExtend 32 := by
    have upper : (n ++ 0xe13#20).extractLsb' 20 12 = n := by
      ext i hi
      rw [BitVec.getElem_extractLsb', BitVec.getLsbD_append, if_neg (by omega),
        Nat.add_sub_cancel_left, BitVec.getLsbD_eq_getElem hi]
    exact congrArg (BitVec.signExtend 32) upper
  unfold decode
  rw [op, f3, dest, source, value]
  rfl

/-- All words but one are the same for every number of steps. -/
theorem decode_others : ∀ k < 14, k ≠ 1 →
    ((fibWords 0)[k]?.bind decode) = (fibProgram 0)[k]? := by
  decide

theorem fibImage_placed (n : BitVec 12) :
    Placed (fibImage n) 0 (fibProgram (n.signExtend 32)) := by
  have words : fibWords n = (fibWords 0).set 1 (n ++ 0xe13#20) := rfl
  have program : fibProgram (n.signExtend 32) =
      (fibProgram 0).set 1 (.imm .add t3 x0 (n.signExtend 32)) := rfl
  refine placed_of_words (show 14 < 2 ^ 30 by decide) (fun k inside => ?_)
  have line := List.getElem?_eq_getElem inside
  by_cases count : k = 1
  · subst count
    exact ⟨_, rfl, decode_count n⟩
  · have unchanged : (fibProgram (n.signExtend 32))[k]? = (fibProgram 0)[k]? := by
      rw [program, List.getElem?_set_ne (Ne.symm count)]
    rw [unchanged, ← decode_others k inside count] at line
    obtain ⟨w, here, decodes⟩ := Option.bind_eq_some_iff.mp line
    refine ⟨w, ?_, decodes⟩
    rw [words, List.getElem?_set_ne (Ne.symm count)]
    exact here

/-- The image of the boards. -/
example : fibWords 0x26 = [
    0x10400e93, 0x02600e13, 0x00000393, 0x00100313, 0x00000293,
    0x000e0c63, 0x005303b3, 0x00030293, 0x00038313, 0xfffe0e13, 0xfedff06f,
    0x005ea023, 0x006ea223, 0x000ea503, 0x00000073] := by
  decide

end Image

end RiscvLab.Fib
