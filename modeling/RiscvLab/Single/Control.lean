import RiscvLab.Single.Registers

/-!
# Control flow of the single-cycle core

The next program counter is the architectural one except after a `jalr` with an
odd sum, whose lowest bit the core does not clear.
-/
namespace RiscvLab.Single
open RiscvLab.Lib.ByteMemory RiscvLab.Lib.Run RiscvLab.Hdl RiscvLab.Rv32i

/-- The next program counter when the sum of a `jalr` is taken as it is. -/
def rawNextPc (a : Arch) (i : Instr) : Word :=
  match i with
  | .jalr _ r1 imm => jalrSum a r1 imm
  | _ => nextPc a i

namespace Core

section Control

variable (x : Undef) {w : Word} {i : Instr} (s : Core) (mem : Word → Byte)

theorem pcSrc_eq (h : Encodes w i) : s.pcSrc x w = taken (s.arch mem) i := by
  have branch : (controls x w).branch = _ := congrArg Decoded.branch (controls_decoded x h)
  have jump : (controls x w).jump = _ := congrArg Decoded.jump (controls_decoded x h)
  rw [pcSrc, branch, jump]
  cases i with
  | branch op r1 r2 imm =>
    have flags := alu_eq x s mem h
    rw [srcB_reg x s mem h rfl] at flags
    obtain ⟨-, kind, rfl, rfl, -⟩ := h
    rw [flags]
    exact (Bool.or_false _).trans ((Bool.true_and _).trans (branchCondition_sub x kind _ _))
  | load | store | reg | imm | lui | auipc => rfl
  | jal | jalr => exact Bool.or_true _

/-- The next program counter is the architectural one, but for the lowest bit of
a `jalr` target, which is not cleared. -/
theorem pcNext_eq (h : Encodes w i) : s.pcNext x w = rawNextPc (s.arch mem) i := by
  have select : (controls x w).jalrsig = _ := congrArg Decoded.jalrsig (controls_decoded x h)
  have redirect := pcSrc_eq x s mem h
  rw [pcNext, pcNextTemp, select, redirect]
  cases i with
  | load | store | reg | imm | lui | auipc => rfl
  | branch op r1 r2 imm =>
    rw [pcTarget, immExt_decoded x h rfl]
    rfl
  | jal d imm =>
    rw [pcTarget, immExt_decoded x h rfl]
    rfl
  | jalr d r1 imm =>
    have value : s.aluResult x w = _ := congrArg AluOut.result (alu_eq x s mem h)
    rw [value, srcB_imm x s h rfl rfl, aluCodeOf, alu_result, h.2.2.2.1]
    rfl

end Control

end Core

section Parity

theorem low_bit_add (v w : Word) : (v + w).getLsbD 0 = (v.getLsbD 0 ^^ w.getLsbD 0) := by
  rw [BitVec.getLsbD_add (by decide), BitVec.carry_zero, Bool.xor_false]

theorem append_zero_even {n : Nat} (v : BitVec n) :
    ((v ++ 0#1).signExtend 32).getLsbD 0 = false := by
  rw [BitVec.getLsbD_signExtend, BitVec.getLsbD_append]
  simp

theorem immB_even (w : Word) : (immB w).getLsbD 0 = false := append_zero_even _

theorem immJ_even (w : Word) : (immJ w).getLsbD 0 = false := append_zero_even _

theorem rawNextPc_eq_iff (a : Arch) (i : Instr) : rawNextPc a i = nextPc a i ↔ JalrEven a i := by
  cases i with
  | jalr d r1 imm =>
    rw [rawNextPc, nextPc, eq_comm, clear_low_bit_iff]
    refine ⟨fun even d' r1' imm' same => ?_, fun even => even d r1 imm rfl⟩
    cases same
    exact even
  | load | store | reg | imm | branch | jal | lui | auipc =>
    exact iff_of_true rfl (fun _ _ _ same => by cases same)

/-- From an even program counter only a `jalr` leads to an odd one. -/
theorem rawNextPc_even_iff {w : Word} {a : Arch} {i : Instr} (h : Encodes w i)
    (even : a.pc.getLsbD 0 = false) : (rawNextPc a i).getLsbD 0 = false ↔ JalrEven a i := by
  have next : (a.pc + 4).getLsbD 0 = false := by rw [low_bit_add, even]; rfl
  have notJalr : ∀ v : Word, v.getLsbD 0 = false → (∀ d r1 imm, i ≠ .jalr d r1 imm) →
      (v.getLsbD 0 = false ↔ JalrEven a i) := fun v clear other =>
    iff_of_true clear (fun d r1 imm same => absurd same (other d r1 imm))
  cases i with
  | jalr d r1 imm =>
    refine ⟨fun clear d' r1' imm' same => ?_, fun even => even d r1 imm rfl⟩
    cases same
    exact clear
  | load | store | reg | imm | lui | auipc =>
    exact notJalr _ next (fun _ _ _ same => by cases same)
  | jal d imm =>
    refine notJalr _ ?_ (fun _ _ _ same => by cases same)
    change (a.pc + imm).getLsbD 0 = false
    rw [low_bit_add, even, h.2.2, immJ_even]
    rfl
  | branch op r1 r2 imm =>
    refine notJalr _ ?_ (fun _ _ _ same => by cases same)
    change (if _ then a.pc + imm else a.pc + 4).getLsbD 0 = false
    split
    · rw [low_bit_add, even, h.2.2.2.2, immB_even]
      rfl
    · exact next

end Parity

section Run

variable {imem : Ram} {x : Nat → Undef} {rf : RegArray} {dmem : Ram}

/-- The instruction that the single-cycle machine executes in a clock cycle. -/
def Top.executes (imem : Ram) (x : Undef) (s : Top) : Option Instr := decode (s.instr imem x)

/-- The architectural state that the machine stands for. -/
def Top.arch (s : Top) : Arch := s.core.arch (bytesOf (n := 30) s.dmem)

theorem topRun_pc {n : Nat} {i : Instr}
    (legal : (topRun imem x rf dmem n).executes imem (x n) = some i) :
    (topRun imem x rf dmem (n + 1)).core.pc = rawNextPc (topRun imem x rf dmem n).arch i :=
  Core.pcNext_eq (x n) _ _ (encodes_of_decode legal)

theorem topRun_even_iff {N : Nat}
    (legal : ∀ n < N, ∃ i, (topRun imem x rf dmem n).executes imem (x n) = some i) :
    (∀ n ≤ N, (topRun imem x rf dmem n).core.pc.getLsbD 0 = false) ↔
      ∀ n < N, ∀ i, (topRun imem x rf dmem n).executes imem (x n) = some i →
        JalrEven (topRun imem x rf dmem n).arch i := by
  constructor
  · intro even n before i fetched
    have next := even (n + 1) before
    rw [topRun_pc fetched] at next
    exact (rawNextPc_even_iff (encodes_of_decode fetched) (even n before.le)).mp next
  · intro sums n
    induction n with
    | zero =>
      intro _
      change (0 : Word).getLsbD 0 = false
      rfl
    | succ n ih =>
      intro within
      obtain ⟨i, fetched⟩ := legal n within
      rw [topRun_pc fetched]
      exact (rawNextPc_even_iff (encodes_of_decode fetched) (ih (Nat.le_of_succ_le within))).mpr
        (sums n within i fetched)

end Run

/-- The next program counter of any state is the architectural one exactly when a
`jalr` has an even sum, and the program counter of a run from reset through legal
instructions stays even exactly when all of its `jalr` have. -/
theorem control_flow_iff (imem : Ram) (x : Nat → Undef) (rf : RegArray) (dmem : Ram) :
    (∀ (undef : Undef) (instr readData : Word) (s : Core) (mem : Word → Byte) (i : Instr),
      decode instr = some i →
      ((s.clock undef instr readData).pc = nextPc (s.arch mem) i ↔ JalrEven (s.arch mem) i)) ∧
    ∀ N, (∀ n < N, ∃ i, (topRun imem x rf dmem n).executes imem (x n) = some i) →
      ((∀ n ≤ N, (topRun imem x rf dmem n).core.pc.getLsbD 0 = false) ↔
        ∀ n < N, ∀ i, (topRun imem x rf dmem n).executes imem (x n) = some i →
          JalrEven (topRun imem x rf dmem n).arch i) := by
  refine ⟨fun undef instr readData s mem i decodes => ?_, fun N => topRun_even_iff⟩
  have next : (s.clock undef instr readData).pc = rawNextPc (s.arch mem) i :=
    Core.pcNext_eq undef s mem (encodes_of_decode decodes)
  rw [next, rawNextPc_eq_iff]

/-- `jalr x0, 8(x0)` reaches an even address. -/
theorem control_flow_iff_eight :
    (Core.clock default 0x00800067 0 ⟨0, fun _ => 0⟩).pc = 8 ∧
      (topRun (fun _ => 0x00800067) (fun _ => default) (fun _ => 0) (fun _ => 0)
        1).core.pc.getLsbD 0 = false := by
  have sum : ∀ a, JalrEven a (.jalr 0 0 8) := by
    intro a d r1 imm same
    cases same
    rw [jalrSum, a.regs.x0]
    rfl
  have fetched : ∀ n < 1, (topRun (fun _ => 0x00800067) (fun _ => default) (fun _ => 0)
      (fun _ => 0) n).executes (fun _ => 0x00800067) default = some (.jalr 0 0 8) := by
    decide
  obtain ⟨step, run⟩ := control_flow_iff (fun _ => 0x00800067) (fun _ => default) (fun _ => 0)
    (fun _ => 0)
  have even := run 1 (fun n before => ⟨_, fetched n before⟩)
  refine ⟨(step default 0x00800067 0 ⟨0, fun _ => 0⟩ (fun _ => 0) (.jalr 0 0 8)
    (by decide)).mpr (sum _), even.mpr (fun n before i same => ?_) 1 (by decide)⟩
  cases (fetched n before).symm.trans same
  exact sum _

/-- `jalr x0, 9(x0)`, over and over. -/
def jalrProgram : Ram := fun _ => 0x00900067

/-- The core goes to the odd address that the architecture rounds down. -/
theorem control_flow_odd :
    (topRun jalrProgram (fun _ => default) (fun _ => 0) (fun _ => 0) 0).executes jalrProgram
        default = some (.jalr 0 0 9) ∧
      nextPc (topRun jalrProgram (fun _ => default) (fun _ => 0) (fun _ => 0) 0).arch
        (.jalr 0 0 9) = 8 ∧
      (topRun jalrProgram (fun _ => default) (fun _ => 0) (fun _ => 0) 1).core.pc = 9 := by
  decide +kernel

end RiscvLab.Single
