import Mathlib.Data.Nat.Fib.Basic
import RiscvLab.Fib.Program
import RiscvLab.Rv32i.Lanes

/-!
# The Fibonacci loop

One pass moves two neighbouring Fibonacci numbers, modulo 2^32, one place on. The program
stores both and makes nothing else of the memory.
-/
namespace RiscvLab.Fib
open RiscvLab.Lib.ByteMemory RiscvLab.Rv32i

/-- A Fibonacci number modulo 2^32. -/
def fibWord (n : Nat) : Word := BitVec.ofNat 32 (Nat.fib n)

theorem fibWord_add_two (n : Nat) : fibWord (n + 2) = fibWord (n + 1) + fibWord n := by
  unfold fibWord
  rw [Nat.fib_add_two, Nat.add_comm, BitVec.ofNat_add]

/-- The registers between two passes: `i` passes are done and `n` are left. -/
structure Passing (i n : Nat) (s : Arch) : Prop where
  low : s.regs.get t0 = fibWord i
  high : s.regs.get t1 = fibWord (i + 1)
  left : (s.regs.get t3).toNat = n
  address : s.regs.get t4 = 0x104

section Blocks

variable {s t : Arch} {i n : Nat}

theorem Passing.of_regs (same : t.regs = s.regs) (h : Passing i n s) : Passing i n t := by
  obtain ⟨low, high, left, address⟩ := h
  rw [← same] at low high left address
  exact ⟨low, high, left, address⟩

theorem passing_init (count : Word) :
    Passing 0 count.toNat (executeBlock s (initBlock count)) := by
  have t0 : (executeBlock s (initBlock count)).regs.get t0 = s.regs.get x0 + 0 := rfl
  have t1 : (executeBlock s (initBlock count)).regs.get t1 = s.regs.get x0 + 1 := rfl
  have t3 : (executeBlock s (initBlock count)).regs.get t3 = s.regs.get x0 + count := rfl
  have t4 : (executeBlock s (initBlock count)).regs.get t4 = s.regs.get x0 + 0x104 := rfl
  rw [Regs.x0] at t0 t1 t3 t4
  exact ⟨t0, t1, by rw [t3, zero_add], t4⟩

theorem passing_helper (h : Passing i (n + 1) s) :
    Passing (i + 1) n (executeBlock s helperBlock) := by
  obtain ⟨low, high, left, address⟩ := h
  have t0 : (executeBlock s helperBlock).regs.get t0 = s.regs.get t1 + 0 := rfl
  have t1 : (executeBlock s helperBlock).regs.get t1 =
      s.regs.get Fib.t1 + s.regs.get Fib.t0 + 0 := rfl
  have t3 : (executeBlock s helperBlock).regs.get t3 = s.regs.get t3 + (-1) := rfl
  refine ⟨?_, ?_, ?_, address⟩
  · rw [t0, add_zero, high]
  · rw [t1, add_zero, high, low, fibWord_add_two]
  · have bound := (s.regs.get Fib.t3).isLt
    rw [t3, BitVec.toNat_add, left]
    change (n + 1 + 4294967295) % 2 ^ 32 = n
    omega

theorem mem_helper : (executeBlock s helperBlock).mem = s.mem := rfl

end Blocks

section Loop

variable {imem : BitVec 30 → Word} {base count : Word} {s : Arch} {i n : Nat}

/-- One pass. -/
theorem pass (placed : Placed imem base (fibProgram count)) (here : s.pc = lineAddress base 5)
    (passing : Passing i (n + 1) s) :
    ∃ t, Walks imem base s t [5, 6, 7, 8, 9, 10] ∧ t.pc = lineAddress base 5 ∧
      Passing (i + 1) n t ∧ t.mem = s.mem := by
  have more : branchTaken .beq (s.regs.get t3) (s.regs.get x0) = false := by
    have left := passing.left
    rw [Regs.x0]
    refine beq_eq_false_iff_ne.mpr (fun zero => ?_)
    rw [zero] at left
    cases left
  have test := placed.one (i := .branch .beq t3 x0 24) rfl here
  have pc : (execute s (.branch .beq t3 x0 24)).pc = lineAddress base 6 := by
    change (if branchTaken .beq (s.regs.get t3) (s.regs.get x0) then _ else _) = _
    rw [more, here]
    exact (lineAddress_succ base 5).symm
  obtain ⟨moved, next⟩ := placed.block helperBlock
    (fun j inside => by
      match j, inside with
      | 0, _ | 1, _ | 2, _ | 3, _ => rfl) (by decide) pc
  have jump := placed.one (i := .jal x0 (-20)) rfl next
  have stepped := passing_helper (passing.of_regs (regs_of_branch .beq t3 x0 24 s))
  have kept := mem_helper (s := execute s (.branch .beq t3 x0 24))
  generalize executeBlock (execute s (.branch .beq t3 x0 24)) helperBlock = u at *
  refine ⟨_, (test.trans moved).trans jump, ?_, ?_, ?_⟩
  · change u.pc + -20 = lineAddress base 5
    rw [next]
    exact BitVec.add_assoc base _ _
  · exact stepped.of_regs (regs_of_jump (-20) u)
  · rw [mem_of_other (by simp) u, kept, mem_of_other (by simp) s]

/-- The loop is left when the counter is 0. -/
theorem loop_run (placed : Placed imem base (fibProgram count)) (here : s.pc = lineAddress base 5)
    (passing : Passing i n s) :
    ∃ t lines, Walks imem base s t lines ∧ (∀ k ∈ lines, k < 11) ∧ lines.length = 6 * n + 1 ∧
      t.pc = lineAddress base 11 ∧ Passing (i + n) 0 t ∧ t.mem = s.mem := by
  induction n generalizing i s with
  | zero =>
    have done : branchTaken .beq (s.regs.get t3) (s.regs.get x0) = true := by
      rw [Regs.x0]
      exact beq_iff_eq.mpr (BitVec.eq_of_toNat_eq passing.left)
    have pc : (execute s (.branch .beq t3 x0 24)).pc = lineAddress base 11 := by
      change (if branchTaken .beq (s.regs.get t3) (s.regs.get x0) then _ else _) = _
      rw [done, here]
      exact BitVec.add_assoc base _ _
    exact ⟨_, [5], placed.one (i := .branch .beq t3 x0 24) rfl here, by decide, rfl, pc,
      passing.of_regs (regs_of_branch .beq t3 x0 24 s), mem_of_other (by simp) s⟩
  | succ n ih =>
    obtain ⟨u, first, pc, passed, kept⟩ := pass placed here passing
    obtain ⟨t, lines, rest, below, length, last, final, same⟩ := ih pc passed
    refine ⟨t, _, first.trans rest, ?_, ?_, last, ?_, same.trans kept⟩
    · intro k inside
      have pass : ∀ k ∈ [5, 6, 7, 8, 9, 10], k < 11 := by decide
      exact (List.mem_append.mp inside).elim (pass k) (below k)
    · rw [List.length_append, length]
      change 6 + (6 * n + 1) = 6 * (n + 1) + 1
      omega
    · rwa [Nat.add_right_comm] at final

/-- From `fib` to `finish`. -/
theorem finish_run (placed : Placed imem base (fibProgram count)) (here : s.pc = base) :
    ∃ t lines, Walks imem base s t lines ∧ (∀ k ∈ lines, k < 11) ∧
      lines.length = 6 * count.toNat + 6 ∧ t.pc = lineAddress base 11 ∧
      Passing count.toNat 0 t ∧ t.mem = s.mem := by
  have first : s.pc = lineAddress base 0 := by
    rw [here]
    exact (BitVec.add_zero base).symm
  obtain ⟨init, pc⟩ := placed.block (initBlock count)
    (fun j inside => by
      match j, inside with
      | 0, _ | 1, _ | 2, _ | 3, _ | 4, _ => rfl)
    (by simp [initBlock, Instr.straight]) first
  obtain ⟨t, lines, loop, below, length, last, final, same⟩ :=
    loop_run placed pc (passing_init count)
  refine ⟨t, _, init.trans loop, ?_, ?_, last, ?_, same⟩
  · intro k inside
    have setup : ∀ k ∈ List.range' 0 5, k < 11 := by decide
    exact (List.mem_append.mp inside).elim (setup k) (below k)
  · rw [List.length_append, length, List.length_range']
    change 5 + _ = _
    omega
  · rwa [Nat.zero_add] at final

end Loop

section Finish

variable {s : Arch} {n : Nat}

/-- The words after `finish`: the two numbers, and what was there before elsewhere. -/
theorem finish_words (h : Passing n 0 s) (index : BitVec 30) :
    wordAt (n := 30) (executeBlock s finishBlock).mem index =
      if index = 0x42 then fibWord (n + 1)
      else if index = 0x41 then fibWord n
      else wordAt (n := 30) s.mem index := by
  have first : s.regs.get t4 + 0 = 0x104 := by rw [h.address]; rfl
  have second : s.regs.get t4 + 4 = 0x108 := by rw [h.address]; rfl
  have mem : (executeBlock s finishBlock).mem =
      storeBytes (n := 30) (storeBytes (n := 30) s.mem (s.regs.get t4 + 0) 4 (s.regs.get t0))
        (s.regs.get t4 + 4) 4 (s.regs.get t1) := rfl
  rw [mem, first, second, wordAt_store_word _ _ _ (by decide), wordAt_store_word _ _ _ (by decide),
    h.low, h.high]
  rfl

/-- The number that is loaded again. -/
theorem finish_a0 (h : Passing n 0 s) :
    (executeBlock s finishBlock).regs.get a0 = fibWord n := by
  have address : s.regs.get t4 + 0 = 0x104 := by rw [h.address]; rfl
  have loaded : (executeBlock s finishBlock).regs.get a0 =
      loadResult .lw (executeBlock s finishBlock).mem (s.regs.get t4 + 0) := rfl
  rw [loaded, address, loadResult_lw _ (by decide), finish_words h]
  rfl

/-- For any number of steps the program comes to its `ecall` after `6 n + 9` instructions,
with F[n] in `a0` and at 0x104 and F[n+1] at 0x108, modulo 2^32, and with all other words
of the memory as they were. -/
theorem fib_run {imem : BitVec 30 → Word} {base count : Word}
    (placed : Placed imem base (fibProgram count)) (here : s.pc = base) :
    ∃ t lines, Walks imem base s t lines ∧ (∀ k ∈ lines, k < 14) ∧
      lines.length = 6 * count.toNat + 9 ∧ t.pc = lineAddress base 14 ∧
      t.regs.get a0 = fibWord count.toNat ∧
      ∀ index : BitVec 30, wordAt (n := 30) t.mem index =
        if index = 0x42 then fibWord (count.toNat + 1)
        else if index = 0x41 then fibWord count.toNat
        else wordAt (n := 30) s.mem index := by
  obtain ⟨u, lines, run, below, length, pc, passing, same⟩ := finish_run placed here
  obtain ⟨stored, last⟩ := placed.block finishBlock
    (fun j inside => by
      match j, inside with
      | 0, _ | 1, _ | 2, _ => rfl) (by decide) pc
  refine ⟨_, _, run.trans stored, ?_, ?_, last, finish_a0 passing, fun index => ?_⟩
  · intro k inside
    have finish : ∀ k ∈ List.range' 11 3, k < 14 := by decide
    rcases List.mem_append.mp inside with loop | stores
    · exact Nat.lt_trans (below k loop) (by decide)
    · exact finish k stores
  · rw [List.length_append, length, List.length_range']
    rfl
  · rw [finish_words passing, same]

end Finish

end RiscvLab.Fib
