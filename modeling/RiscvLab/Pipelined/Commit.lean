import RiscvLab.Pipelined.Refinement

/-!
# Precise states of the pipeline

Only the first `K` instructions of the sequential run need be supported. One cycle after
the instruction behind them has come to E, the register file and the data memory are what
those `K` instructions have made of them, and nothing else.
-/
namespace RiscvLab.Pipelined
open RiscvLab.Lib.ByteMemory RiscvLab.Lib.Run RiscvLab.Lib.Schedule RiscvLab.Hdl RiscvLab.Rv32i

section Commit

variable {imem : Ram} {rf : RegArray} {dmem : Ram} {K : Nat}

theorem gap_le (imem : Ram) (init : Arch) (k : Nat) : gap imem init k ≤ 3 := by
  unfold gap
  dsimp only
  split
  · split
    · exact Nat.le_refl 3
    · split <;> decide
  · decide

/-- Every instruction takes one to three cycles. -/
theorem executeCycle_bounds (imem : Ram) (init : Arch) (k : Nat) :
    k + 2 ≤ executeCycle imem init k ∧ executeCycle imem init k ≤ 3 * k + 2 := by
  induction k with
  | zero => exact ⟨Nat.le_refl 2, Nat.le_refl 2⟩
  | succ k ih =>
    have grown : executeCycle imem init (k + 1) = executeCycle imem init k + gap imem init k := rfl
    have least := gap_positive imem init k
    have most := gap_le imem init k
    omega

/-- When instruction `K` is in E, the instructions before it have left their effects. -/
theorem executeCycle_commits (supported : SupportedTo imem (seqInit rf dmem) K)
    (x : Nat → Undef) :
    (∃ xd, (topRun imem x rf dmem (executeCycle imem (seqInit rf dmem) K)).core.Holds xd
      (wordOf imem (seqRun imem (seqInit rf dmem) K)) (seqRun imem (seqInit rf dmem) K).pc) ∧
    (∀ r, regRead (topRun imem x rf dmem
        (executeCycle imem (seqInit rf dmem) K + 1)).core.rfNegedge r =
      (seqRun imem (seqInit rf dmem) K).regs.get r) ∧
    ∀ index : BitVec 30, index.toNat < depth →
      (topRun imem x rf dmem (executeCycle imem (seqInit rf dmem) K + 1)).dmem index =
        wordAt (n := 30) (seqRun imem (seqInit rf dmem) K).mem index := by
  have simulates := executeCycle_simulates supported x
  refine ⟨simulates.front.1, fun r => ?_, fun index inside => ?_⟩
  · rw [regRead_eq, ← simulates.regs (x (executeCycle imem (seqInit rf dmem) K))]
    rfl
  · exact simulates.mem (x (executeCycle imem (seqInit rf dmem) K)) index inside

/-- Instruction `K` is in E after `K + 2` to `3 K + 2` cycles. One cycle later the register
file and the data memory are those of the sequential machine after `K` instructions. These
are legal, no `auipc` and no `jalr` with an odd sum, with their targets and aligned data
inside the memories. -/
theorem precise_state (supported : SupportedTo imem (seqInit rf dmem) K) (x : Nat → Undef) :
    (∃ xd, (topRun imem x rf dmem (executeCycle imem (seqInit rf dmem) K)).core.Holds xd
      (wordOf imem (seqRun imem (seqInit rf dmem) K)) (seqRun imem (seqInit rf dmem) K).pc) ∧
    (∀ r, regRead (topRun imem x rf dmem
        (executeCycle imem (seqInit rf dmem) K + 1)).core.rfNegedge r =
      (seqRun imem (seqInit rf dmem) K).regs.get r) ∧
    (∀ index : BitVec 30, index.toNat < depth →
      (topRun imem x rf dmem (executeCycle imem (seqInit rf dmem) K + 1)).dmem index =
        wordAt (n := 30) (seqRun imem (seqInit rf dmem) K).mem index) ∧
    K + 2 ≤ executeCycle imem (seqInit rf dmem) K ∧
      executeCycle imem (seqInit rf dmem) K ≤ 3 * K + 2 := by
  obtain ⟨holds, regs, mem⟩ := executeCycle_commits supported x
  exact ⟨holds, regs, mem, executeCycle_bounds _ _ _⟩

/-- The jump through `x1 = 8`, the link and the mask are the first four instructions. -/
theorem precise_state_even : regRead (topRun (jalrProgram false) (fun _ => default)
    (fun _ => 0) (fun _ => 0) (executeCycle (jalrProgram false) zeroInit 4 + 1)).core.rfNegedge =
      (seqRun (jalrProgram false) zeroInit 4).regs.get :=
  funext (precise_state ((jalrProgram_supported false).to jalrProgram_even 4) _).2.1

end Commit

end RiscvLab.Pipelined
