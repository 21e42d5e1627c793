import RiscvLab.Lib.ByteMemory

/-!
# Building blocks that both cores instantiate

Wires of one bit are `Bool`, wider ones `BitVec`. Flip-flops are given as the
next value of their output. An `x` of the source is a value that `Undef`
supplies; every result is for all such values, a different one in each cycle.
-/
namespace RiscvLab.Hdl
open RiscvLab.Lib.ByteMemory

/-- What the unspecified (`x`) values of one clock cycle happen to be. -/
structure Undef where
  /-- Rows and bits of the main decoder written with `x`. -/
  controls : BitVec 13
  /-- Function codes outside the table of the ALU decoder, and its codes outside that of the ALU. -/
  aluControl : BitVec 4
  alu : Word
  /-- Immediate formats outside the table of the extender. -/
  immext : Word
  /-- Load and store lanes for which the source assigns nothing. -/
  loadLane : Word
  storeLane : Word
  /-- Branch codes for which the source assigns nothing. -/
  branch : Bool
  /-- Reads outside the instruction and data memories. -/
  instr : Word
  data : Word
  deriving Inhabited

def adder (a b : Word) : Word := a + b

def mux2 {α : Type} (d0 d1 : α) (s : Bool) : α := if s then d1 else d0

def mux3 {α : Type} (d0 d1 d2 : α) (s : BitVec 2) : α :=
  if s.getLsbD 1 then d2 else if s.getLsbD 0 then d1 else d0

def mux4 {α : Type} (d0 d1 d2 d3 : α) (s : BitVec 2) : α :=
  if s.getLsbD 1 then (if s.getLsbD 0 then d3 else d2) else if s.getLsbD 0 then d1 else d0

section FlipFlops

variable {α : Type}

/-- Next output of a flip-flop with enable. -/
def flopenr (en : Bool) (d q : α) : α := if en then d else q

/-- Next output of a flip-flop with enable and clear. A clear without enable is ignored. -/
def flopenrc (zero : α) (clear en : Bool) (d q : α) : α :=
  if en then (if clear then zero else d) else q

/-- Next output of a flip-flop with clear. -/
def floprc (zero : α) (clear : Bool) (d : α) : α := if clear then zero else d

end FlipFlops

/-- `extend`: the immediate of an instruction in one of five formats. -/
def extend (x : Undef) (instr : Word) (immsrc : BitVec 3) : Word :=
  match immsrc with
  -- I-type
  | 0b000 => BitVec.fill 20 (instr.getLsbD 31) ++ instr.extractLsb' 20 12
  -- S-type (stores)
  | 0b001 => BitVec.fill 20 (instr.getLsbD 31) ++ instr.extractLsb' 25 7 ++ instr.extractLsb' 7 5
  -- B-type (branches)
  | 0b010 => BitVec.fill 20 (instr.getLsbD 31) ++ instr.extractLsb' 7 1 ++
      instr.extractLsb' 25 6 ++ instr.extractLsb' 8 4 ++ 0#1
  -- J-type (jal)
  | 0b011 => BitVec.fill 12 (instr.getLsbD 31) ++ instr.extractLsb' 12 8 ++
      instr.extractLsb' 20 1 ++ instr.extractLsb' 21 10 ++ 0#1
  -- U-type (lui, auipc)
  | 0b100 => instr.extractLsb' 12 20 ++ 0#12
  | _ => x.immext

section Lanes

-- The lane tables of the loads and of `sh`, which both cores write alike.

variable (undefined readData : Word) (lane : BitVec 2)

/-- `lb` -/
def signedByte : Word :=
  match lane with
  | 0b00 => BitVec.fill 24 (readData.getLsbD 7) ++ readData.extractLsb' 0 8
  | 0b01 => BitVec.fill 24 (readData.getLsbD 15) ++ readData.extractLsb' 8 8
  | 0b10 => BitVec.fill 24 (readData.getLsbD 23) ++ readData.extractLsb' 16 8
  | _ => BitVec.fill 24 (readData.getLsbD 31) ++ readData.extractLsb' 24 8

/-- `lh` -/
def signedHalf : Word :=
  match lane with
  | 0b00 => BitVec.fill 16 (readData.getLsbD 15) ++ readData.extractLsb' 0 16
  | 0b10 => BitVec.fill 16 (readData.getLsbD 31) ++ readData.extractLsb' 16 16
  | _ => undefined

/-- `lbu` -/
def unsignedByte : Word :=
  match lane with
  | 0b00 => 0#24 ++ readData.extractLsb' 0 8
  | 0b01 => 0#24 ++ readData.extractLsb' 8 8
  | 0b10 => 0#24 ++ readData.extractLsb' 16 8
  | _ => 0#24 ++ readData.extractLsb' 24 8

/-- `lhu` -/
def unsignedHalf : Word :=
  match lane with
  | 0b00 => 0#16 ++ readData.extractLsb' 0 16
  | 0b10 => 0#16 ++ readData.extractLsb' 16 16
  | _ => undefined

/-- `sh` -/
def storeHalf (rd2 : Word) : Word :=
  match lane with
  | 0b00 => readData.extractLsb' 16 16 ++ rd2.extractLsb' 0 16
  | 0b10 => rd2.extractLsb' 0 16 ++ readData.extractLsb' 0 16
  | _ => undefined

end Lanes

section AluWires

variable (a b : Word) (alucontrol : BitVec 4)

def condinvb : Word := if alucontrol.getLsbD 0 then ~~~b else b

/-- `sum`, extended by one bit for the carry. -/
def aluSum : BitVec 33 :=
  a.setWidth 33 + (condinvb b alucontrol).setWidth 33 +
    (BitVec.ofBool (alucontrol.getLsbD 0)).setWidth 33

def isAddSub : Bool :=
  (!alucontrol.getLsbD 2 && !alucontrol.getLsbD 1) ||
    (!alucontrol.getLsbD 1 && alucontrol.getLsbD 0)

/-- The overflow flag `v`. -/
def overflow : Bool :=
  !(alucontrol.getLsbD 0 ^^ a.getLsbD 31 ^^ b.getLsbD 31) &&
    (a.getLsbD 31 ^^ (aluSum a b alucontrol).getLsbD 31) && isAddSub alucontrol

/-- Result and flags of an `alu`. -/
structure AluOut where
  result : Word
  zero : Bool
  negative : Bool
  carry : Bool
  v : Bool
  deriving DecidableEq, Repr

/-- The flag outputs, the same in both ALUs, for the result that each selects. -/
def aluOut (result : Word) : AluOut where
  result
  zero := result == 0
  negative := result.getLsbD 31
  carry := !alucontrol.getLsbD 1 && (aluSum a b alucontrol).getLsbD 32
  v := overflow a b alucontrol

end AluWires

/-- The array of `regfile`. -/
abbrev RegArray := BitVec 5 → Word

/-- A read port of `regfile`; register 0 is hardwired to 0. -/
def regRead (rf : RegArray) (a : BitVec 5) : Word := if a ≠ 0 then rf a else 0

/-- The write port of `regfile`. It does write entry 0, which no port reads. -/
def regWrite (rf : RegArray) (we3 : Bool) (a3 : BitVec 5) (wd3 : Word) : RegArray :=
  if we3 then Function.update rf a3 wd3 else rf

/-- The word index of a byte address, `a[31:2]`. -/
def wordIndex (a : Word) : BitVec 30 := a.extractLsb' 2 30

section Memories

/-- A memory `RAM[depth-1:0]` of words. -/
abbrev Ram := BitVec 30 → Word

variable (depth : Nat)

/-- `rd = RAM[a[31:2]]`, undefined outside the array. -/
def ramRead (ram : Ram) (undefined : Word) (a : Word) : Word :=
  if (wordIndex a).toNat < depth then ram (wordIndex a) else undefined

/-- `if (we) RAM[a[31:2]] <= wd`, without effect outside the array. -/
def ramWrite (ram : Ram) (we : Bool) (a wd : Word) : Ram :=
  if we && decide ((wordIndex a).toNat < depth) then Function.update ram (wordIndex a) wd else ram

end Memories

end RiscvLab.Hdl
