import RiscvLab.Lib.Assembly

/-!
# The assembly filter

`fir` of lab1/lab1_/fir2/fir2.S, line by line. `t0` is where `y` ends and `t1` where `c`
ends; `t2` points to the newest sample of an output, `t4` and `t5` to the factors of the
next product.
-/
namespace RiscvLab.Fir
open RiscvLab.Lib.Assembly

inductive Label
  | fir
  | forj
  | fori
  | donei
  | donej
  deriving DecidableEq, Repr

/-- Both initialisations; the second one starts over. -/
def initBlock : List (Instr Label) := [
  .sub .t0 .a3 .a4,
  .slli .t0 .t0 2,
  .add .t0 .a2 .t0,
  .slli .t1 .a4 2,
  .add .t1 .a1 .t1,
  .addi .t2 .a4 (-1),
  .slli .t2 .t2 2,
  .add .t2 .a0 .t2,
  -- "what the initialization needs to change to"
  .sub .t0 .a3 .a4,
  .addi .t0 .t0 1,
  .addi .t6 .zero 4,
  .mul .t0 .t0 .t6,
  .add .t0 .t0 .a2,
  .mul .t1 .a4 .t6,
  .add .t1 .t1 .a1,
  .addi .t2 .a4 (-1),
  .mul .t2 .t2 .t6,
  .add .t2 .t2 .a0,
  .add .a0 .a2 .zero]

/-- The beginning of an output. -/
def rowBlock : List (Instr Label) := [
  .add .t3 .zero .zero,
  .add .t4 .a1 .zero,
  .add .t5 .t2 .zero]

/-- One product. -/
def tapBlock : List (Instr Label) := [
  .lw .t6 0 .t4,
  .lw .a5 0 .t5,
  .mul .a6 .a5 .t6,
  .srli .a6 .a6 31,
  .add .t3 .t3 .a6,
  .addi .t4 .t4 4,
  .addi .t5 .t5 (-4)]

/-- The end of an output. -/
def storeBlock : List (Instr Label) := [
  .sw .t3 0 .a2,
  .addi .a2 .a2 4,
  .addi .t2 .t2 4]

def firProgram : List (Line Label) :=
  [.label .fir] ++ initBlock.map .instr ++
  [.label .forj, .instr (.bge .a2 .t0 .donej)] ++ rowBlock.map .instr ++
  [.label .fori, .instr (.bge .a1 .t1 .donei)] ++ tapBlock.map .instr ++
  [.instr (.blt .t4 .t1 .fori)] ++ storeBlock.map .instr ++
  [.instr (.j .forj),
    .label .donei, .instr (.j .forj),
    .label .donej, .instr .ret]

/-- The call of `fir`. -/
def AtEntry (s : Machine 64) : Prop := s.pc = target firProgram .fir

end RiscvLab.Fir
