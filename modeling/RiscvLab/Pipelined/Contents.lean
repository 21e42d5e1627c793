import RiscvLab.Pipelined.Decode
import RiscvLab.Pipelined.Forwarding

/-!
# What the execute stage holds

E is empty or holds what decode made of an instruction. Whatever the memories
and the PC register do, an instruction that enters E finds its operands: no
result is forwarded from M before it is known.
-/
namespace RiscvLab.Pipelined
open RiscvLab.Lib.ByteMemory RiscvLab.Hdl RiscvLab.Rv32i

def isAuipc : Instr → Bool
  | .auipc .. => true
  | _ => false

namespace Core

/-- E holds what decode made of the word `w` fetched at `pc`, with operands read
from the register file as it is now. -/
structure Holds (xd : Undef) (w pc : Word) (s : Core) : Prop where
  control : s.controlregE = controlD xd w
  data : s.regE = dataD xd s.rf ⟨w, pc, pc + 4⟩

/-- E holds no instruction. -/
structure Bubble (s : Core) : Prop where
  control : s.controlregE = .zero
  data : s.regE = .zero

section Fields

variable {xd x : Undef} {w pc : Word} {s : Core} {i : Instr}

theorem Holds.decoded (h : s.Holds xd w pc) (enc : Encodes w i) :
    (⟨s.controlregE.regWriteE, s.controlregE.resultSrcE, s.controlregE.memWriteE,
      s.controlregE.jumpE, s.controlregE.branchE, s.controlregE.aluSrcE,
      (maindec xd (opcode w)).auipcSrc⟩ : Decoded) = decoded i := by
  rw [h.control]
  exact maindec_decoded xd enc

theorem Holds.aluControl (h : s.Holds xd w pc) (enc : Encodes w i) {code : BitVec 4}
    (hc : aluCodeOf i = some code) : s.controlregE.aluControlE = code := by
  rw [h.control]
  exact aludec_decoded xd enc hc

theorem Holds.immediate (h : s.Holds xd w pc) (enc : Encodes w i) {imm : Word}
    (hi : immOf i = some imm) : s.regE.immExtE = imm := by
  rw [h.data]
  exact extend_decoded xd enc hi

theorem Holds.read1 (h : s.Holds xd w pc) (enc : Encodes w i) (noAuipc : isAuipc i = false) :
    s.regE.rd1E = regRead s.rf s.regE.rs1E := by
  have noPc : (maindec xd (opcode w)).auipcSrc = false := by
    have bits := congrArg Decoded.auipcSrc (maindec_decoded xd enc)
    cases i <;> first | exact bits | cases noAuipc
  rw [h.data]
  exact if_neg (ne_true_of_eq_false noPc)

theorem Holds.read2 (h : s.Holds xd w pc) : s.regE.rd2E = regRead s.rf s.regE.rs2E := by
  rw [h.data]
  rfl

theorem pcSrc1_eq (s : Core) : s.pcSrc1 = (s.controlregE.opE == 0b1100111) := by
  unfold pcSrc1
  split
  next same => rw [same]; rfl
  next other => exact (beq_eq_false_iff_ne.mpr other).symm

theorem Bubble.pcSrc0 (h : s.Bubble) : s.pcSrc0 x = false := by
  rw [Core.pcSrc0, h.control]
  rfl

theorem Bubble.pcSrc1 (h : s.Bubble) : s.pcSrc1 = false := by
  rw [Core.pcSrc1, h.control]
  rfl

theorem Bubble.lwStallD (h : s.Bubble) : s.lwStallD = false := by
  rw [Core.lwStallD, h.control]
  rfl

end Fields

section Clock

variable (x : Undef) (pcEnable : Bool) (instrF readDataM : Word) {s : Core}

theorem flushD_eq : s.flushD x = s.pcSrc0 x := by
  rw [flushD, pcSrcE]
  cases s.pcSrc0 x <;> cases s.pcSrc1 <;> rfl

theorem flushE_eq : s.flushE x = (s.lwStallD || s.pcSrc0 x) :=
  congrArg (s.lwStallD || ·) (flushD_eq x)

/-- D keeps its word, is emptied or takes the word fetched. -/
theorem clock_regD : (s.clock x pcEnable instrF readDataM).regD = s.regD ∨
    (s.clock x pcEnable instrF readDataM).regD = .zero ∨
    (s.clock x pcEnable instrF readDataM).regD = ⟨instrF, s.pcF, s.pcPlus4F⟩ := by
  have input : (s.clock x pcEnable instrF readDataM).regD =
      flopenrc .zero (s.flushD x) (!s.stallD) ⟨instrF, s.pcF, s.pcPlus4F⟩ s.regD := rfl
  rw [input]
  cases s.stallD with
  | true => exact .inl rfl
  | false =>
    cases s.flushD x with
    | true => exact .inr (.inl rfl)
    | false => exact .inr (.inr rfl)

/-- What holds of the empty word, of the word in D and of the word fetched stays true in D. -/
theorem clock_instrD {holds : Word → Prop} (empty : holds RegD.zero.instrD)
    (here : holds s.regD.instrD) (fetched : holds instrF) :
    holds (s.clock x pcEnable instrF readDataM).regD.instrD := by
  rcases clock_regD x pcEnable instrF readDataM (s := s) with kept | cleared | next
  · rw [kept]
    exact here
  · rw [cleared]
    exact empty
  · rw [next]
    exact fetched

/-- A flush empties E. -/
theorem clock_bubble (flush : s.flushE x = true) :
    (s.clock x pcEnable instrF readDataM).Bubble := by
  constructor
  · change floprc _ (s.flushE x) _ = _
    rw [flush]
    rfl
  · change floprc _ (s.flushE x) _ = _
    rw [flush]
    rfl

/-- Without a flush E holds the word from D. -/
theorem clock_holds (noFlush : s.flushE x = false)
    (link : s.regD.pcPlus4D = s.regD.pcD + 4) :
    (s.clock x pcEnable instrF readDataM).Holds x s.regD.instrD s.regD.pcD := by
  constructor
  · change floprc _ (s.flushE x) _ = _
    rw [noFlush]
    rfl
  · change floprc _ (s.flushE x) _ = dataD x s.rfNegedge
      ⟨s.regD.instrD, s.regD.pcD, s.regD.pcD + 4⟩
    rw [noFlush, ← link]
    rfl

end Clock

/-- An empty decode stage leaves no instruction in E. -/
theorem decode_zero (x : Undef) (rf : RegArray) :
    controlD x RegD.zero.instrD = .zero ∧ dataD x rf .zero = .zero := by
  have row : maindec x (RegD.zero.instrD.extractLsb' 0 7) =
      ⟨false, 0b000, false, false, 0b00, false, 0b00, false, false⟩ := maindec_zero x
  constructor
  · rw [controlD, row]
    rfl
  · rw [dataD, row]
    rfl

/-- E is empty or holds an instruction. -/
def Contents (s : Core) : Prop :=
  s.Bubble ∨ ∃ xd w pc i, Encodes w i ∧ s.Holds xd w pc

/-- D is empty or holds an instruction and its link address. -/
def Decodes (s : Core) : Prop :=
  s.regD = .zero ∨ (∃ i, Encodes s.regD.instrD i) ∧ s.regD.pcPlus4D = s.regD.pcD + 4

section Legal

variable {s : Core} (x : Undef) (pcEnable : Bool) (instrF readDataM : Word)

theorem Decodes.clock (h : s.Decodes) (legal : ∃ i, Encodes instrF i) :
    (s.clock x pcEnable instrF readDataM).Decodes := by
  unfold Decodes
  rcases clock_regD x pcEnable instrF readDataM (s := s) with kept | empty | fetched
  · rw [kept]
    exact h
  · exact .inl empty
  · rw [fetched]
    exact .inr ⟨legal, rfl⟩

theorem Decodes.contents (h : s.Decodes) : (s.clock x pcEnable instrF readDataM).Contents := by
  cases flush : s.flushE x with
  | true => exact .inl (clock_bubble x pcEnable instrF readDataM flush)
  | false =>
    rcases h with empty | ⟨⟨i, enc⟩, link⟩
    · have control : (s.clock x pcEnable instrF readDataM).controlregE =
          floprc .zero (s.flushE x) (controlD x s.regD.instrD) := rfl
      have data : (s.clock x pcEnable instrF readDataM).regE =
          floprc .zero (s.flushE x) (dataD x s.rfNegedge s.regD) := rfl
      rw [flush, empty] at control data
      exact .inl ⟨control.trans (decode_zero x s.rfNegedge).1,
        data.trans (decode_zero x s.rfNegedge).2⟩
    · exact .inr ⟨x, _, _, i, enc, clock_holds x pcEnable instrF readDataM flush link⟩

end Legal

section Safe

variable {s : Core} {x : Undef}

/-- If an instruction has a late result then it stalls its successor or jumps. -/
theorem Contents.late (h : s.Contents) (writes : s.controlregE.regWriteE = true) :
    s.controlregE.resultSrcE = 0 ∨ s.controlregE.resultSrcE.getLsbD 0 = true ∨
      s.pcSrc0 x = true := by
  rcases h with empty | ⟨xd, w, pc, i, enc, holds⟩
  · rw [empty.control] at writes
    cases writes
  · have bits := holds.decoded enc
    have source : s.controlregE.resultSrcE = _ := congrArg Decoded.resultSrc bits
    have jump : s.controlregE.jumpE = _ := congrArg Decoded.jump bits
    rw [source, pcSrc0, jump]
    cases i with
    | load => exact .inr (.inl (by decide : (0b01 : BitVec 2).getLsbD 0 = true))
    | lui => exact .inr (.inl (by decide : (0b11 : BitVec 2).getLsbD 0 = true))
    | jal | jalr => exact .inr (.inr (Bool.or_true _))
    | store | reg | imm | branch | auipc => exact .inl rfl

/-- What is no store does not write to the data memory. -/
theorem Contents.memWrite (h : s.Contents) (noStore : s.controlregE.opE ≠ 0b0100011) :
    s.controlregE.memWriteE = false := by
  rcases h with empty | ⟨xd, w, pc, i, enc, holds⟩
  · rw [empty.control]
    rfl
  · have write : s.controlregE.memWriteE = _ := congrArg Decoded.memWrite (holds.decoded enc)
    rw [write]
    cases i with
    | store => exact absurd ((congrArg ControlRegE.opE holds.control).trans enc.1) noStore
    | load | reg | imm | branch | jal | jalr | lui | auipc => rfl

/-- Whatever enters E can be given M's ALU result for the registers it names. -/
theorem clock_forwardSafe (late : s.controlregE.regWriteE = true → s.controlregE.resultSrcE = 0 ∨
      s.controlregE.resultSrcE.getLsbD 0 = true ∨ s.pcSrc0 x = true)
    (pcEnable : Bool) (instrF readDataM : Word) :
    (s.clock x pcEnable instrF readDataM).ForwardSafe := by
  intro writes nonzero names
  cases flush : s.flushE x with
  | true =>
    have empty := (clock_bubble x pcEnable instrF readDataM flush).data
    rw [empty] at names
    exact absurd (names.elim Eq.symm Eq.symm) nonzero
  | false =>
    have enters : (s.clock x pcEnable instrF readDataM).regE =
        floprc .zero (s.flushE x) (dataD x s.rfNegedge s.regD) := rfl
    rw [flush] at enters
    rw [enters] at names
    rw [flushE_eq, Bool.or_eq_false_iff] at flush
    rcases late writes with now | late | jump
    · exact now
    · have stall : s.lwStallD = true := by
        rw [lwStallD, late, Bool.true_and, Bool.or_eq_true, beq_iff_eq, beq_iff_eq]
        exact names
      rw [flush.1] at stall
      cases stall
    · rw [flush.2] at jump
      cases jump

theorem Contents.forwardSafe (h : s.Contents) (x : Undef) (pcEnable : Bool)
    (instrF readDataM : Word) : (s.clock x pcEnable instrF readDataM).ForwardSafe :=
  clock_forwardSafe h.late pcEnable instrF readDataM

end Safe

end Core

end RiscvLab.Pipelined
