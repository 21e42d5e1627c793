import RiscvLab.Pipelined.Refinement

/-!
# The schedule of the execute stage

Which cycle each instruction spends in E, and what E holds in the other cycles.
Both are read off the simulation: its slot counts the cycles to the next
instruction down to zero.
-/
namespace RiscvLab.Pipelined
open RiscvLab.Lib.ByteMemory RiscvLab.Lib.Run RiscvLab.Lib.Schedule RiscvLab.Hdl RiscvLab.Rv32i

section Schedule

variable {imem : Ram} {init : Arch}

theorem executeCycle_succ {k : Nat} {i : Instr}
    (legal : fetch imem (seqRun imem init k) = some i) :
    executeCycle imem init (k + 1) = executeCycle imem init k +
      if taken (seqRun imem init k) i then 3
      else if isLoadOrLui i &&
          (rs1 (wordOf imem (seqRun imem init (k + 1))) == rd (wordOf imem (seqRun imem init k)) ||
            rs2 (wordOf imem (seqRun imem init (k + 1))) == rd (wordOf imem (seqRun imem init k)))
        then 2
      else 1 := by
  rw [← gap_eq legal]
  rfl

end Schedule

section Hazards

variable {imem : Ram} {x : Undef} {a : Arch} {s : Top}

/-- The bubble that a stall sends into E ends the stall. -/
theorem lwStallD_clock (imem : Ram) (x : Undef) (stall : s.core.lwStallD = true) :
    (s.clock imem x).core.lwStallD = false :=
  (clock_stalls imem x stall).2.2.lwStallD

/-- A stall never meets a flush. -/
theorem Simulates.flushD {wait : Nat} (h : Simulates imem a wait s)
    (ok : wait = 0 → Supported imem a) (x : Undef) (stall : s.core.lwStallD = true) :
    s.core.flushD x = false := by
  rw [Core.flushD_eq]
  cases wait with
  | zero =>
    obtain ⟨xd, i, -, issues⟩ := h.issues (x := x) (ok rfl)
    rw [issues.lwStallD, Bool.and_eq_true] at stall
    rw [issues.pcSrc0]
    cases i with
    | load | lui => rfl
    | store | reg | imm | branch | jal | jalr | auipc => cases stall.1
  | succ wait => exact h.front.bubble.pcSrc0

end Hazards

section Run

variable {imem : Ram} {rf : RegArray} {dmem : Ram} {K : Nat}

theorem bubble_otherwise (supported : SupportedTo imem (seqInit rf dmem) K) (x : Nat → Undef)
    {n : Nat} (within : n ≤ executeCycle imem (seqInit rf dmem) K)
    (other : ∀ k, n ≠ executeCycle imem (seqInit rf dmem) k) :
    (topRun imem x rf dmem n).core.Bubble := by
  have front := (topRun_simulates supported x n within).front
  have running := slotAt_eq_iff 2 (gap_positive imem (seqInit rf dmem)) n
    (slotAt (gap imem (seqInit rf dmem)) 2 n).index
  cases waits : (slotAt (gap imem (seqInit rf dmem)) 2 n).wait with
  | zero =>
    rw [← waits] at running
    exact absurd (running.mp rfl) (other _)
  | succ wait =>
    rw [waits] at front
    exact front.bubble

theorem stall_noFlush (supported : SupportedTo imem (seqInit rf dmem) K) (x : Nat → Undef)
    {n : Nat} (before : n < executeCycle imem (seqInit rf dmem) K)
    (stall : (topRun imem x rf dmem n).core.lwStallD = true) :
    (topRun imem x rf dmem n).core.flushD (x n) = false := by
  have waiting := slotAt_open 2 (gap_positive imem (seqInit rf dmem)) before
  have simulates := topRun_simulates supported x n (Nat.le_of_lt before)
  refine simulates.flushD (fun now => ?_) (x n) stall
  exact supported.before _ (waiting.resolve_right (fun last => last.2 now))

/-- As long as no `jalr` that has come to E has added up an odd address, each instruction
of the sequential run is in E in its own cycle and E is empty in all others. Stalls
last one cycle and never meet a flush. A run that is supported throughout is so to any `K`
(`SupportedRun.to`). -/
theorem execute_schedule (imem : Ram) (rf : RegArray) (dmem : Ram) (K : Nat)
    (supported : SupportedTo imem (seqInit rf dmem) K) (x : Nat → Undef) :
    executeCycle imem (seqInit rf dmem) 0 = 2 ∧
    (∀ k i, fetch imem (seqRun imem (seqInit rf dmem) k) = some i →
      executeCycle imem (seqInit rf dmem) (k + 1) = executeCycle imem (seqInit rf dmem) k +
        if taken (seqRun imem (seqInit rf dmem) k) i then 3
        else if isLoadOrLui i &&
            (rs1 (wordOf imem (seqRun imem (seqInit rf dmem) (k + 1))) ==
                rd (wordOf imem (seqRun imem (seqInit rf dmem) k)) ||
              rs2 (wordOf imem (seqRun imem (seqInit rf dmem) (k + 1))) ==
                rd (wordOf imem (seqRun imem (seqInit rf dmem) k)))
          then 2
        else 1) ∧
    StrictMono (executeCycle imem (seqInit rf dmem)) ∧
    (∀ k ≤ K, ∃ xd,
      (topRun imem x rf dmem (executeCycle imem (seqInit rf dmem) k)).core.Holds xd
        (wordOf imem (seqRun imem (seqInit rf dmem) k)) (seqRun imem (seqInit rf dmem) k).pc) ∧
    (∀ n ≤ executeCycle imem (seqInit rf dmem) K,
      (∀ k, n ≠ executeCycle imem (seqInit rf dmem) k) → (topRun imem x rf dmem n).core.Bubble) ∧
    (∀ n, (topRun imem x rf dmem n).core.lwStallD = true →
      (topRun imem x rf dmem (n + 1)).core.lwStallD = false) ∧
    (∀ n < executeCycle imem (seqInit rf dmem) K, (topRun imem x rf dmem n).core.lwStallD = true →
      (topRun imem x rf dmem n).core.flushD (x n) = false) := by
  refine ⟨rfl, fun k i => executeCycle_succ, ?_, fun k le => ?_, fun n => ?_, fun n => ?_,
    fun n => ?_⟩
  · exact issue_strictMono 2 (gap_positive imem (seqInit rf dmem))
  · exact (executeCycle_simulates (supported.mono le) x).front.1
  · exact bubble_otherwise supported x
  · exact lwStallD_clock imem (x n)
  · exact stall_noFlush supported x

/-- With `x1 = 8` every instruction is in E when the schedule says. -/
theorem execute_schedule_even : executeCycle (jalrProgram false) zeroInit 0 = 2 ∧ ∀ k, ∃ xd,
    (topRun (jalrProgram false) (fun _ => default) (fun _ => 0) (fun _ => 0)
      (executeCycle (jalrProgram false) zeroInit k)).core.Holds xd
      (wordOf (jalrProgram false) (seqRun (jalrProgram false) zeroInit k))
      (seqRun (jalrProgram false) zeroInit k).pc := by
  have schedule : ∀ K, _ := fun K => execute_schedule (jalrProgram false) _ _ K
    ((jalrProgram_supported false).to jalrProgram_even K) (fun _ => default)
  exact ⟨(schedule 0).1, fun k => (schedule k).2.2.2.1 k (Nat.le_refl k)⟩

/-- With `x1 = 9` the core takes a branch that the architecture does not take, and
E is empty in the cycle of the sixth instruction. -/
theorem execute_schedule_odd : SupportedRun (jalrProgram true) zeroInit ∧
    ¬ ∃ xd, (topRun (jalrProgram true) (fun _ => default) (fun _ => 0) (fun _ => 0)
      (executeCycle (jalrProgram true) zeroInit 5)).core.Holds xd
      (wordOf (jalrProgram true) (seqRun (jalrProgram true) zeroInit 5))
      (seqRun (jalrProgram true) zeroInit 5).pc := by
  have empty : (topRun (jalrProgram true) (fun _ => default) (fun _ => 0) (fun _ => 0)
      (executeCycle (jalrProgram true) zeroInit 5)).core.controlregE = .zero := by decide +kernel
  have opcode : opcode (wordOf (jalrProgram true) (seqRun (jalrProgram true) zeroInit 5)) ≠
      ControlRegE.zero.opE := by decide +kernel
  refine ⟨jalrProgram_supported true, ?_⟩
  rintro ⟨xd, holds⟩
  have op := congrArg ControlRegE.opE holds.control
  rw [empty] at op
  exact opcode op.symm

end Run

end RiscvLab.Pipelined
