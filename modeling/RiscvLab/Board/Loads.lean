import RiscvLab.Board.Transactions
import RiscvLab.Pipelined.MemoryUnits

/-!
# Loads of the board

A load takes `readDataM` as it is in its own M cycle, long before the transaction
that it starts returns. Later instructions then use exactly the value that the
load wrote.
-/
namespace RiscvLab.Board
open RiscvLab.Lib.ByteMemory RiscvLab.Lib.Run RiscvLab.Hdl RiscvLab.Rv32i RiscvLab.Pipelined

section Run

variable {imem : Ram} {input : Nat → Input} {rf : RegArray}

theorem topRun_forwardSafe (legal : Legal imem) :
    ∀ n, (topRun imem input rf n).core.ForwardSafe
  | 0 => fun impossible => by cases impossible
  | n + 1 => (topRun_contents legal n).forwardSafe _ _ _ _

/-- The registers once the instructions in W and M of cycle `n` have written back. -/
def drainedRegs (imem : Ram) (input : Nat → Input) (rf : RegArray) (n : Nat) : Regs :=
  .ofArray ((topRun imem input rf n).core.drainedRf (input n).undef (input n).readDataM)

theorem drainedRegs_succ (n : Nat) (r : Reg)
    (other : ¬ ((topRun imem input rf n).core.controlregE.regWriteE = true ∧
      (topRun imem input rf n).core.regE.rdE = r)) :
    (drainedRegs imem input rf (n + 1)).get r = (drainedRegs imem input rf n).get r := by
  have moved : (topRun imem input rf (n + 1)).core.drainedRf (input (n + 1)).undef
      (input (n + 1)).readDataM = regWrite _ _ _ _ :=
    Core.drainedRf_clock (input n).undef (input (n + 1)).undef _ _ _ _
  rw [drainedRegs, moved]
  exact ofArray_regWrite_of_ne _ _ _ _ other

/-- An instruction in E that is not `auipc` has the drained registers as operands. -/
theorem operands_drained (legal : Legal imem) (n : Nat)
    (noAuipc : (topRun imem input rf n).core.controlregE.opE ≠ 0b0010111) :
    (topRun imem input rf n).core.srcAE =
        (drainedRegs imem input rf n).get (topRun imem input rf n).core.regE.rs1E ∧
      (topRun imem input rf n).core.writeDataE =
        (drainedRegs imem input rf n).get (topRun imem input rf n).core.regE.rs2E := by
  have safe : (topRun imem input rf n).core.ForwardSafe := topRun_forwardSafe legal n
  have contents : (topRun imem input rf n).core.Contents := topRun_contents legal n
  have reads : (topRun imem input rf n).core.regE.rd1E =
        regRead (topRun imem input rf n).core.rf (topRun imem input rf n).core.regE.rs1E ∧
      (topRun imem input rf n).core.regE.rd2E =
        regRead (topRun imem input rf n).core.rf (topRun imem input rf n).core.regE.rs2E := by
    rcases contents with empty | ⟨xd, w, pc, i, enc, holds⟩
    · rw [empty.data]
      exact ⟨rfl, rfl⟩
    · have plain : isAuipc i = false := by
        cases i with
        | auipc => exact absurd ((congrArg ControlRegE.opE holds.control).trans enc.1) noAuipc
        | load | store | reg | imm | branch | jal | jalr | lui => rfl
      exact ⟨holds.read1 enc plain, holds.read2⟩
  exact ⟨Core.srcAE_drained _ _ safe reads.1, Core.writeDataE_drained _ _ safe reads.2⟩

/-- A load in E and what it is in M and W one and two cycles later. -/
theorem load_contents (legal : Legal imem) {k : Nat}
    (isLoad : (topRun imem input rf k).core.controlregE.opE = 0b0000011) :
    (topRun imem input rf (k + 1)).memStrobeM = true ∧
    (topRun imem input rf (k + 1)).core.controlregM.regWriteM = true ∧
    (topRun imem input rf (k + 1)).core.controlregM.resultSrcM = 0b01 ∧
    (topRun imem input rf (k + 1)).core.regM.aluSrcM = true ∧
    (topRun imem input rf (k + 1)).core.regM.funct3M = (topRun imem input rf k).core.regE.funct3E ∧
    (topRun imem input rf (k + 1)).core.regM.rdM = (topRun imem input rf k).core.regE.rdE := by
  have strobe := (memStrobeM_eq imem input rf k).1
  rw [isLoad] at strobe
  have contents : (topRun imem input rf k).core.Contents := topRun_contents legal k
  rcases contents with empty | ⟨xd, w, pc, i, enc, holds⟩
  · rw [empty.control] at isLoad
    exact absurd isLoad (by decide)
  · have op : opcode w = 0b0000011 := by
      rw [holds.control] at isLoad
      exact isLoad
    have bits := holds.decoded enc
    cases i with
    | load =>
      simp only [decoded, Decoded.mk.injEq] at bits
      exact ⟨strobe, bits.1, bits.2.1, bits.2.2.2.2.2.1, rfl, rfl⟩
    | store | reg | imm | branch | jal | jalr | lui | auipc =>
      rw [enc.1] at op
      exact absurd op (by decide)

/-- The value a load writes is its lane of `readDataM` in its own M cycle. -/
theorem load_resultW (legal : Legal imem) {k : Nat} {op : LoadOp}
    (isLoad : (topRun imem input rf k).core.controlregE.opE = 0b0000011)
    (kind : loadOp (topRun imem input rf k).core.regE.funct3E = some op)
    (aligned : Aligned op.size (topRun imem input rf (k + 1)).addressM) :
    (topRun imem input rf (k + 2)).core.resultW =
      loadWord op (input (k + 1)).readDataM (laneOf (topRun imem input rf (k + 1)).addressM) := by
  obtain ⟨-, writes, source, aluSrc, function, -⟩ := load_contents legal isLoad
  rw [← function] at kind
  have value : (topRun imem input rf (k + 2)).core.resultW =
      (topRun imem input rf (k + 1)).core.resultM (input (k + 1)).undef (input (k + 1)).readDataM :=
    rfl
  rw [value, Core.resultM, source, Core.dataM, writes, aluSrc, source]
  exact load_unit _ _ kind aligned

/-- Until it is written again, the register of a load holds the value of the load. -/
theorem load_drained (legal : Legal imem) {k : Nat}
    (isLoad : (topRun imem input rf k).core.controlregE.opE = 0b0000011)
    (nonzero : (topRun imem input rf k).core.regE.rdE ≠ 0) {m : Nat} (later : k + 1 ≤ m)
    (others : ∀ j, k + 1 ≤ j → j < m →
      ¬ ((topRun imem input rf j).core.controlregE.regWriteE = true ∧
        (topRun imem input rf j).core.regE.rdE = (topRun imem input rf k).core.regE.rdE)) :
    (drainedRegs imem input rf m).get (topRun imem input rf k).core.regE.rdE =
      (topRun imem input rf (k + 2)).core.resultW := by
  induction m, later using Nat.le_induction with
  | base =>
    obtain ⟨-, writes, -, -, -, dest⟩ := load_contents legal isLoad
    rw [drainedRegs, Core.drainedRf, writes, dest, ofArray_regWrite]
    exact if_pos ⟨rfl, nonzero⟩
  | succ m later ih =>
    rw [drainedRegs_succ m _ (others m later (Nat.lt_succ_self m))]
    exact ih (fun j after before => others j after (Nat.lt_succ_of_lt before))

/-- `MemControl`, busy since cycle `n`, returns to idle on the falling edge of cycle `r`. -/
def Returns (imem : Ram) (input : Nat → Input) (rf : RegArray) (n r : Nat) : Prop :=
  n < r ∧ (∀ j, n < j → j ≤ r → (topRun imem input rf j).memControl ≠ .idle) ∧
    (topRun imem input rf (r + 1)).memControl = .idle

/-- No instruction after the load in E in cycle `k` uses an older value of its register. -/
def NoOlderValue (imem : Ram) (input : Nat → Input) (rf : RegArray) (k : Nat) : Prop :=
  ∀ m, k + 1 ≤ m → (topRun imem input rf m).core.controlregE.opE ≠ 0b0010111 →
    (∀ j, k + 1 ≤ j → j < m → ¬ ((topRun imem input rf j).core.controlregE.regWriteE = true ∧
      (topRun imem input rf j).core.regE.rdE = (topRun imem input rf k).core.regE.rdE)) →
    (topRun imem input rf k).core.regE.rdE ≠ 0 →
    ((topRun imem input rf m).core.regE.rs1E = (topRun imem input rf k).core.regE.rdE →
      (topRun imem input rf m).core.srcAE = (topRun imem input rf (k + 2)).core.resultW) ∧
    ((topRun imem input rf m).core.regE.rs2E = (topRun imem input rf k).core.regE.rdE →
      (topRun imem input rf m).core.writeDataE = (topRun imem input rf (k + 2)).core.resultW)

theorem noOlderValue (legal : Legal imem) {k : Nat}
    (isLoad : (topRun imem input rf k).core.controlregE.opE = 0b0000011) :
    NoOlderValue imem input rf k := by
  intro m later noAuipc others nonzero
  obtain ⟨operand1, operand2⟩ := operands_drained legal m noAuipc
  have value := load_drained legal isLoad nonzero later others
  refine ⟨fun names => ?_, fun names => ?_⟩
  · rw [operand1, names, value]
  · rw [operand2, names, value]

/-- A load that is in E in cycle `k` of a run starts a transaction, writes its lane of
`readDataM` as it stands when `MemControl` returns to idle, and is not overlooked by
later instructions, if and only if `MemControl` is idle when the load is in M and the
addressed bytes of `readDataM` are then what they are on the return. -/
theorem load_returns_iff (imem : Ram) (input : Nat → Input) (rf : RegArray) (legal : Legal imem)
    (k : Nat) (isLoad : (topRun imem input rf k).core.controlregE.opE = 0b0000011) (op : LoadOp)
    (kind : loadOp (topRun imem input rf k).core.regE.funct3E = some op)
    (aligned : Aligned op.size (topRun imem input rf (k + 1)).addressM) :
    ((topRun imem input rf (k + 1)).starts (input (k + 1)) = true ∧
      (topRun imem input rf (k + 2)).core.regWriteW = true ∧
      (topRun imem input rf (k + 2)).core.regW.rdW = (topRun imem input rf k).core.regE.rdE ∧
      (∀ r, Returns imem input rf (k + 1) r → (topRun imem input rf (k + 2)).core.resultW =
        loadWord op (input r).readDataM (laneOf (topRun imem input rf (k + 1)).addressM)) ∧
      NoOlderValue imem input rf k) ↔
    (topRun imem input rf (k + 1)).memControl = .idle ∧
      ∀ r, Returns imem input rf (k + 1) r → ∀ j < op.size,
        byteOf (input (k + 1)).readDataM
            (laneOf (topRun imem input rf (k + 1)).addressM + BitVec.ofNat 2 j) =
          byteOf (input r).readDataM
            (laneOf (topRun imem input rf (k + 1)).addressM + BitVec.ofNat 2 j) := by
  obtain ⟨strobe, writes, -, -, -, dest⟩ := load_contents legal isLoad
  have value := load_resultW legal isLoad kind aligned
  have accepted : (topRun imem input rf (k + 1)).starts (input (k + 1)) = true ↔
      (topRun imem input rf (k + 1)).memControl = .idle := by
    rw [Top.starts_eq, strobe, Bool.true_and, decide_eq_true_iff]
  rw [accepted]
  constructor
  · rintro ⟨idle, -, -, same, -⟩
    refine ⟨idle, fun r returns => ?_⟩
    rw [← loadWord_eq_iff, ← value]
    exact same r returns
  · rintro ⟨idle, same⟩
    refine ⟨idle, writes, dest, fun r returns => ?_, noOlderValue legal isLoad⟩
    rw [value, loadWord_eq_iff]
    exact same r returns

/-- One load from a memory that answers three cycles after it was asked. -/
def loadProgram : Ram := fun index =>
  match index.toNat with
  | 0 => 0x00002083 -- lw x1, 0(x0)
  | _ => 0x00000063 -- beq x0, x0, 0

def loadInput (answer : Word) (n : Nat) : Input :=
  { undef := default, doneM := true, readDataM := if 5 ≤ n then 7 else answer }

theorem loadProgram_legal : Legal loadProgram := by
  intro index
  rw [loadProgram]
  split
  · exact ⟨.load .lw 1 0 0, by decide⟩
  · exact ⟨.branch .beq 0 0 0, by decide⟩

/-- On a memory that already shows the 7 the load writes what is there on the return. -/
theorem load_returns_iff_seven :
    (topRun loadProgram (loadInput 7) (fun _ => 0) 3).starts (loadInput 7 3) = true ∧
    ∀ r, Returns loadProgram (loadInput 7) (fun _ => 0) 3 r →
      (topRun loadProgram (loadInput 7) (fun _ => 0) 4).core.resultW =
        loadWord .lw (loadInput 7 r).readDataM 0 := by
  have returned := (load_returns_iff loadProgram (loadInput 7) (fun _ => 0) loadProgram_legal 2
    (by decide +kernel) .lw (by decide +kernel) (by decide +kernel)).mpr
      ⟨by decide +kernel, fun r _ _ _ => by rw [loadInput, loadInput, ite_self, ite_self]⟩
  exact ⟨returned.1, returned.2.2.2.1⟩

/-- The load is accepted, but it writes the 0 that is on `readDataM` before the 7 arrives. -/
theorem load_returns_late : Legal loadProgram ∧
    (topRun loadProgram (loadInput 0) (fun _ => 0) 2).core.controlregE.opE = 0b0000011 ∧
    (topRun loadProgram (loadInput 0) (fun _ => 0) 3).starts (loadInput 0 3) = true ∧
    ¬ ∀ r, Returns loadProgram (loadInput 0) (fun _ => 0) 3 r →
      (topRun loadProgram (loadInput 0) (fun _ => 0) 4).core.resultW =
        loadWord .lw (loadInput 0 r).readDataM 0 := by
  refine ⟨loadProgram_legal, by decide +kernel, by decide +kernel, fun returned => ?_⟩
  have busy : ∀ j, 3 < j → j ≤ 6 →
      (topRun loadProgram (loadInput 0) (fun _ => 0) j).memControl ≠ .idle := by
    intro j after before
    have cases : j = 4 ∨ j = 5 ∨ j = 6 := by omega
    rcases cases with rfl | rfl | rfl <;> decide +kernel
  have wrong := returned 6 ⟨by decide, busy, by decide +kernel⟩
  revert wrong
  decide +kernel

end Run

end RiscvLab.Board
