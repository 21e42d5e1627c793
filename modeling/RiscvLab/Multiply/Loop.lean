import RiscvLab.Lib.DoubleWord
import RiscvLab.Lib.ShiftAdd
import RiscvLab.Multiply.Program

/-!
# The multiplication loop

One pass through the loop is one round of shifting and adding on numbers in two words.
-/
namespace RiscvLab.Multiply
open RiscvLab.Lib.ByteMemory RiscvLab.Lib.DoubleWord RiscvLab.Lib.ShiftAdd RiscvLab.Rv32i

section Rounds

/-- What the registers hold between two rounds. -/
def state (s : Arch) : State (BitVec (32 + 32)) where
  acc := s.regs.get s4 ++ s.regs.get s3
  mcand := s.regs.get s2 ++ s.regs.get s1
  mplier := (s.regs.get s0).toNat

variable (s : Arch)

/-- The four additions are one in two words. -/
theorem state_addBlock : state (executeBlock s addBlock) =
    { state s with acc := (state s).acc + (state s).mcand } := by
  have sum := append_add (s.regs.get s4) (s.regs.get s3) (s.regs.get s2) (s.regs.get s1)
    (by decide)
  unfold state
  rw [sum]
  simp [executeBlock, addBlock, execute, regResult, aluResult, Regs.set, carryOut]

/-- The shifts double the multiplicand and halve the multiplier. -/
theorem state_shiftBlock : state (executeBlock s shiftBlock) =
    ⟨(state s).acc, (state s).mcand + (state s).mcand, (state s).mplier / 2⟩ := by
  have double := append_add_self (s.regs.get s2) (s.regs.get s1) (by decide)
  have half : (s.regs.get s0).toNat / 2 = (s.regs.get s0 >>> 1).toNat := by
    rw [BitVec.toNat_ushiftRight, Nat.shiftRight_eq_div_pow]
  unfold state
  rw [double, half]
  simp [executeBlock, shiftBlock, execute, regResult, aluResult, Regs.set]

end Rounds

section Passes

variable {imem : BitVec 30 → Word} {base : Word} {s : Arch}

/-- A branch keeps the registers and goes on by its offset or by 4. -/
theorem state_branch (op : BranchOp) (r1 r2 : Reg) (imm : Word) :
    state (execute s (.branch op r1 r2 imm)) = state s := rfl

theorem pc_branch (op : BranchOp) (r1 r2 : Reg) (imm : Word) :
    (execute s (.branch op r1 r2 imm)).pc =
      if branchTaken op (s.regs.get r1) (s.regs.get r2) then s.pc + imm else s.pc + 4 := rfl

/-- The lowest bit of the multiplier arrives in `t0`. -/
theorem mask_run (placed : Placed imem base multLoop) (here : s.pc = lineAddress base 0) :
    ∃ t, Walks imem base s t [0] ∧ t.pc = lineAddress base 1 ∧
      state t = state s ∧ t.regs.get t0 = s.regs.get s0 &&& 1 := by
  refine ⟨_, placed.one (i := .imm .and t0 s0 1) rfl here, ?_, ?_, ?_⟩
  · rw [pc_of_straight rfl, here, lineAddress_succ]
  · simp [state, execute, regResult, Regs.set]
  · simp [execute, regResult, aluResult, Regs.set]

/-- The multiplicand is added if and only if that bit is set. -/
theorem add_run (placed : Placed imem base multLoop) (here : s.pc = lineAddress base 0) :
    ∃ t lines, Walks imem base s t lines ∧ (∀ k ∈ lines, k < 12) ∧ lines.count 0 = 1 ∧
      t.pc = lineAddress base 6 ∧ state t = { state s with acc := (state s).next.acc } := by
  obtain ⟨u, mask, pc, same, bit⟩ := mask_run placed here
  have test := mask.trans (placed.one (i := .branch .beq t0 x0 20) rfl pc)
  have low : (s.regs.get s0 &&& 1 = 0) ↔ ¬ (state s).mplier % 2 = 1 := by
    rw [← BitVec.toNat_inj, BitVec.toNat_and]
    change (s.regs.get s0).toNat &&& 1 = 0 ↔ ¬ (s.regs.get s0).toNat % 2 = 1
    rw [Nat.and_one_is_mod]
    omega
  have jump : branchTaken .beq (u.regs.get t0) (u.regs.get x0) = true ↔
      ¬ (state s).mplier % 2 = 1 := by
    rw [bit, Regs.x0, ← low]
    exact beq_iff_eq
  have after := pc_branch (s := u) .beq t0 x0 20
  by_cases odd : (state s).mplier % 2 = 1
  · rw [if_neg (fun taken => jump.mp taken odd), pc, ← lineAddress_succ] at after
    obtain ⟨added, next⟩ := placed.block addBlock (by decide) (by decide) after
    refine ⟨_, _, test.trans added, by decide, by decide, next, ?_⟩
    rw [state_addBlock, state_branch, same, State.next, if_pos odd]
  · rw [if_pos (jump.mpr odd), pc] at after
    refine ⟨_, _, test, by decide, by decide, after.trans ?_, ?_⟩
    · exact BitVec.add_assoc base _ _
    · rw [state_branch, same, State.next, if_neg odd]

/-- The multiplicand is doubled and the multiplier halved, and the loop goes on as long as
it is not 0. -/
theorem shift_run (placed : Placed imem base multLoop) (here : s.pc = lineAddress base 6) :
    ∃ t, Walks imem base s t [6, 7, 8, 9, 10, 11] ∧
      state t = ⟨(state s).acc, (state s).mcand + (state s).mcand, (state s).mplier / 2⟩ ∧
      t.pc = lineAddress base (if (state t).mplier = 0 then 12 else 0) := by
  obtain ⟨shifted, pc⟩ := placed.block shiftBlock (by decide) (by decide) here
  have halved := state_shiftBlock s
  generalize executeBlock s shiftBlock = u at shifted pc halved
  have test := placed.one (i := .branch .bne s0 x0 (-44)) rfl pc
  refine ⟨_, shifted.trans test, halved, ?_⟩
  have jump : branchTaken .bne (u.regs.get s0) (u.regs.get x0) = true ↔
      ¬ (state u).mplier = 0 := by
    rw [Regs.x0]
    change (u.regs.get s0 != 0) = true ↔ ¬ (u.regs.get s0).toNat = 0
    rw [bne_iff_ne]
    exact not_congr BitVec.toNat_inj.symm
  rw [pc_branch, state_branch]
  by_cases done : (state u).mplier = 0
  · rw [if_neg (fun taken => jump.mp taken done), if_pos done, pc, lineAddress_succ]
    rfl
  · rw [if_pos (jump.mpr done), if_neg done, pc]
    exact BitVec.add_assoc base _ _

/-- One pass is one round. -/
theorem pass (placed : Placed imem base multLoop) (here : s.pc = lineAddress base 0) :
    ∃ t lines, Walks imem base s t lines ∧ (∀ k ∈ lines, k < 12) ∧ lines.count 0 = 1 ∧
      state t = (state s).next ∧
      t.pc = lineAddress base (if (state t).mplier = 0 then 12 else 0) := by
  obtain ⟨u, lines, added, below, once, pc, sum⟩ := add_run placed here
  obtain ⟨t, shifted, halved, pc'⟩ := shift_run placed pc
  refine ⟨t, _, added.trans shifted, ?_, ?_, ?_, pc'⟩
  · intro k inside
    have shifts : ∀ k ∈ [6, 7, 8, 9, 10, 11], k < 12 := by decide
    exact (List.mem_append.mp inside).elim (below k) (shifts k)
  · rw [List.count_append, once]
    rfl
  · rw [halved, sum]
    rfl

end Passes

section Product

variable {imem : BitVec 30 → Word} {base : Word} {s : Arch}

/-- The loop makes as many passes as the multiplier has bits, and the value is in the
accumulator in the end. -/
theorem loop_run (placed : Placed imem base multLoop) (here : s.pc = lineAddress base 0) :
    ∃ t lines, Walks imem base s t lines ∧ (∀ k ∈ lines, k < 12) ∧
      lines.count 0 = (state s).mplier.log2 + 1 ∧ t.pc = lineAddress base 12 ∧
      (state t).acc = (state s).value := by
  generalize passes : (state s).mplier.log2 = n
  induction n generalizing s with
  | zero =>
    obtain ⟨t, lines, run, below, once, round, pc⟩ := pass placed here
    have last : (state t).mplier = 0 := by
      rw [round]
      by_contra more
      rw [log2_more more] at passes
      exact absurd passes (Nat.succ_ne_zero _)
    rw [if_pos last] at pc
    refine ⟨t, lines, run, below, once, pc, ?_⟩
    rw [acc_of_zero _ last, round, value_next]
  | succ n ih =>
    obtain ⟨t, lines, run, below, once, round, pc⟩ := pass placed here
    have more : (state s).mplier / 2 ≠ 0 := by
      intro last
      rw [log2_last last] at passes
      exact absurd passes.symm (Nat.succ_ne_zero n)
    have open' : ¬ (state t).mplier = 0 := by
      rw [round]
      exact more
    rw [if_neg open'] at pc
    have fewer : (state t).mplier.log2 = n := by
      rw [log2_more more] at passes
      rw [round]
      exact Nat.succ_injective passes
    obtain ⟨u, lines', run', below', count, pc', acc⟩ := ih pc fewer
    refine ⟨u, lines ++ lines', run.trans run', ?_, ?_, pc', ?_⟩
    · intro k inside
      exact (List.mem_append.mp inside).elim (below k) (below' k)
    · rw [List.count_append, once, count, Nat.add_comm]
    · rw [acc, round, value_next]

/-- The product of two words fits into two words. -/
theorem toNat_nsmul_low (k : Nat) (low : Word) (small : k < 2 ^ 32) :
    (k • ((0 : Word) ++ low) : BitVec (32 + 32)).toNat = low.toNat * k := by
  have bound : k * low.toNat < 2 ^ 64 := by
    calc k * low.toNat < 2 ^ 32 * 2 ^ 32 := Nat.mul_lt_mul'' small low.isLt
      _ = 2 ^ 64 := by decide
  have value : ((0 : Word) ++ low).toNat = low.toNat := by
    rw [toNat_append]
    exact Nat.zero_add _
  have factor : ((k : BitVec (32 + 32))).toNat = k := by
    rw [BitVec.natCast_eq_ofNat, BitVec.toNat_ofNat]
    exact Nat.mod_eq_of_lt (small.trans (by decide))
  rw [nsmul_eq_mul, BitVec.toNat_mul, value, factor, Nat.mod_eq_of_lt bound, Nat.mul_comm]

/-- A word has at most 32 bits. -/
theorem rounds_le (multiplier : Word) : multiplier.toNat.log2 + 1 ≤ 32 := by
  by_cases zero : multiplier.toNat = 0
  · rw [zero]
    decide
  · exact (Nat.log2_lt zero).mpr multiplier.isLt

/-- The label `done`, at the `ecall` behind the loop. -/
def done (base : Word) : Word := lineAddress base 12

/-- From `loop` with `s2`, `s3` and `s4` clear, the walk to `done` leaves the product of `s1`
and `s0` in `s4` and `s3`. -/
theorem loop_product (placed : Placed imem base multLoop) (here : s.pc = base)
    (upper : s.regs.get s2 = 0) (low : s.regs.get s3 = 0) (high : s.regs.get s4 = 0) :
    ∃ t lines, Walks imem base s t lines ∧ (∀ k ∈ lines, k < 12) ∧ lines.count 0 ≤ 32 ∧
      t.pc = done base ∧ (t.regs.get s4 ++ t.regs.get s3).toNat =
        (s.regs.get s1).toNat * (s.regs.get s0).toNat := by
  have first : base = lineAddress base 0 := (BitVec.add_zero base).symm
  obtain ⟨t, lines, run, below, passes, pc, acc⟩ := loop_run placed (here.trans first)
  have value : (state s).value = (s.regs.get s0).toNat • ((0 : Word) ++ s.regs.get s1) := by
    have clear : (0 : Word) ++ (0 : Word) = (0 : BitVec (32 + 32)) := rfl
    unfold State.value state
    rw [low, high, upper, clear, zero_add]
  have product := congrArg BitVec.toNat (acc.trans value)
  rw [toNat_nsmul_low _ _ (BitVec.isLt _)] at product
  refine ⟨t, lines, run, below, ?_, pc, product⟩
  rw [passes]
  exact rounds_le _

/-- From `loop` with `s2`, `s3` and `s4` clear the program comes to `done` after at most 32
passes, with the product of `s1` and `s0` in `s4` and `s3`. -/
theorem mult_exact (placed : Placed imem base multLoop) (here : s.pc = base)
    (upper : s.regs.get s2 = 0) (low : s.regs.get s3 = 0) (high : s.regs.get s4 = 0) :
    ∃ path t, Reaches imem s path t ∧ t.pc = done base ∧ done base ∉ path ∧
      path.count base ≤ 32 ∧ (t.regs.get s4 ++ t.regs.get s3).toNat =
        (s.regs.get s1).toNat * (s.regs.get s0).toNat := by
  obtain ⟨t, lines, run, below, passes, pc, product⟩ := loop_product placed here upper low high
  have small : ∀ k ∈ lines, k < 2 ^ 30 := fun k inside => (below k inside).trans (by decide)
  refine ⟨_, t, run, pc, ?_, ?_, product⟩
  · intro inside
    obtain ⟨k, member, same⟩ := List.mem_map.mp inside
    have last := lineAddress_inj (small k member) (by decide) same
    exact absurd (below k member) (by omega)
  · have first : lineAddress base 0 = base := BitVec.add_zero base
    have count : (lines.map (lineAddress base)).count (lineAddress base 0) = lines.count 0 :=
      count_lineAddress small (by decide)
    rw [first] at count
    rw [count]
    exact passes

/-- The state in which the image starts. -/
def start : Arch := ⟨0, Regs.ofArray (fun _ => 0), fun _ => 0⟩

/-- The image multiplies its two constants. -/
theorem mult_exact_image : ∃ k, (seqRun multImage start k).pc = done 160 ∧
    ((seqRun multImage start k).regs.get s4 ++ (seqRun multImage start k).regs.get s3).toNat =
      0x81346FCA * 0x17C3A571 := by
  -- forty instructions before the loop
  obtain ⟨path, t, ⟨run, -⟩, pc, -, -, product⟩ :=
    mult_exact (s := seqRun multImage start 40) multImage_placed (by decide +kernel)
      (by decide +kernel) (by decide +kernel) (by decide +kernel)
  have factors : (seqRun multImage start 40).regs.get s1 = 0x81346FCA ∧
      (seqRun multImage start 40).regs.get s0 = 0x17C3A571 := by decide +kernel
  refine ⟨40 + path.length, ?_, ?_⟩
  · rw [seqRun_add, run, pc]
  · rw [seqRun_add, run, product, factors.1, factors.2]
    rfl

end Product

end RiscvLab.Multiply
