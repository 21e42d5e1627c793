import Mathlib.Algebra.BigOperators.Group.Finset.Basic
import Mathlib.Algebra.BigOperators.Intervals
import RiscvLab.Sum.Program

/-!
# Calling `sum`

A call returns the sum of the numbers up to its argument, modulo 2^32, to the caller, with
all other registers as they were and nothing written but eight bytes below the stack pointer.
For the largest argument the loop's comparison never fails, and the call does not return.
-/
namespace RiscvLab.Sum
open RiscvLab.Lib.ByteMemory RiscvLab.Lib.Run RiscvLab.Rv32i

section Stack

variable (mem : Word → Byte) (a v : Word)

/-- A stored byte. -/
theorem storeBytes_at {k : Word} (inside : k.toNat < 4) :
    storeBytes (n := 30) mem a 4 v (a + k) = v.extractLsb' (8 * k.toNat) 8 := by
  rw [storeBytes, add_sub_cancel_left, if_pos inside]

/-- A word that has been stored is loaded again, at any address. -/
theorem lw_stored : loadResult .lw (storeBytes (n := 30) mem a 4 v) a = v := by
  have first : storeBytes (n := 30) mem a 4 v (a + 0) = v.extractLsb' 0 8 :=
    storeBytes_at mem a v (by decide)
  rw [add_zero] at first
  unfold loadResult
  dsimp only
  rw [first, storeBytes_at mem a v (by decide), storeBytes_at mem a v (by decide),
    storeBytes_at mem a v (by decide)]
  exact ofBytes_byteOf v

/-- The word below is not touched. -/
theorem lw_below : loadResult .lw (storeBytes (n := 30) mem (a + 4) 4 v) a =
    loadResult .lw mem a := by
  have outside : ∀ k : Word, k.toNat < 4 →
      storeBytes (n := 30) mem (a + 4) 4 v (a + k) = mem (a + k) := by
    intro k small
    refine if_neg ?_
    rw [add_sub_add_left_eq_sub, BitVec.toNat_sub]
    change ¬ (2 ^ 32 - 4 + k.toNat) % 2 ^ 32 < 4
    omega
  have first := outside 0 (by decide)
  rw [add_zero] at first
  unfold loadResult
  dsimp only
  rw [first, outside 3 (by decide), outside 2 (by decide), outside 1 (by decide)]

end Stack

/-- The sum of the numbers up to `n`, modulo 2^32. -/
def sumWord (n : Nat) : Word := BitVec.ofNat 32 (∑ i ∈ Finset.range (n + 1), i)

theorem sumWord_succ (n : Nat) : sumWord (n + 1) = sumWord n + BitVec.ofNat 32 (n + 1) := by
  unfold sumWord
  rw [Finset.sum_range_succ, BitVec.ofNat_add]

/-- The memory in which the two registers have been saved. -/
def savedMem (entry : Arch) : Word → Byte :=
  storeBytes (n := 30) (storeBytes (n := 30) entry.mem (entry.regs.get sp - 8) 4
    (entry.regs.get s0)) (entry.regs.get sp - 8 + 4) 4 (entry.regs.get s1)

/-- Inside of a call, with `i` numbers added up. -/
structure Adding (entry : Arch) (i : Nat) (s : Arch) : Prop where
  result : s.regs.get s0 = sumWord i
  next : s.regs.get s1 = BitVec.ofNat 32 (i + 1)
  stack : s.regs.get sp = entry.regs.get sp - 8
  others : ∀ r, r ≠ s0 → r ≠ s1 → r ≠ sp → s.regs.get r = entry.regs.get r
  saved : s.mem = savedMem entry

section Blocks

variable {entry s t : Arch} {i : Nat}

theorem Adding.of_regs (regs : t.regs = s.regs) (mem : t.mem = s.mem) (h : Adding entry i s) :
    Adding entry i t := by
  obtain ⟨result, next, stack, others, saved⟩ := h
  rw [← regs] at result next stack others
  exact ⟨result, next, stack, others, mem.trans saved⟩

theorem set_self {regs : Regs} {rd : Reg} (some_reg : rd ≠ 0) (value : Word) :
    (regs.set rd value).get rd = value := if_pos ⟨rfl, some_reg⟩

theorem set_zero (regs : Regs) (value : Word) : regs.set x0 value = regs :=
  Regs.ext fun _ => if_neg fun written => written.2 rfl

theorem set_other {regs : Regs} {r rd : Reg} (other : r ≠ rd) (value : Word) :
    (regs.set rd value).get r = regs.get r := if_neg fun same => other same.1

theorem adding_enter (entry : Arch) : Adding entry 0 (executeBlock entry enterBlock) where
  result := by
    have value : (executeBlock entry enterBlock).regs.get s0 = entry.regs.get x0 + 0 := rfl
    rw [value, Regs.x0]
    rfl
  next := by
    have value : (executeBlock entry enterBlock).regs.get s1 = entry.regs.get x0 + 1 := rfl
    rw [value, Regs.x0]
    rfl
  stack := by
    have value : (executeBlock entry enterBlock).regs.get sp = entry.regs.get sp + -8 := rfl
    rw [value, ← sub_eq_add_neg]
  others r notS0 notS1 notSp := by
    have regs : (executeBlock entry enterBlock).regs =
        ((entry.regs.set sp (entry.regs.get sp + -8)).set s0 (entry.regs.get x0 + 0)).set s1
          (entry.regs.get x0 + 1) := rfl
    rw [regs, set_other notS1, set_other notS0, set_other notSp]
  saved := by
    have mem : (executeBlock entry enterBlock).mem = storeBytes (n := 30)
        (storeBytes (n := 30) entry.mem (entry.regs.get sp + -8 + 0) 4 (entry.regs.get s0))
          (entry.regs.get sp + -8 + 4) 4 (entry.regs.get s1) := rfl
    rw [mem, add_zero, ← sub_eq_add_neg]
    rfl

theorem adding_add (h : Adding entry i s) : Adding entry (i + 1) (executeBlock s addBlock) where
  result := by
    have value : (executeBlock s addBlock).regs.get s0 = s.regs.get s0 + s.regs.get s1 := rfl
    rw [value, h.result, h.next, sumWord_succ]
  next := by
    have value : (executeBlock s addBlock).regs.get s1 = s.regs.get s1 + 1 := rfl
    rw [value, h.next, BitVec.ofNat_add (i + 1) 1]
    rfl
  stack := h.stack
  others r notS0 notS1 notSp := by
    have regs : (executeBlock s addBlock).regs =
        (s.regs.set s0 (s.regs.get s0 + s.regs.get s1)).set s1 (s.regs.get s1 + 1) := rfl
    rw [regs, set_other notS1, set_other notS0]
    exact h.others r notS0 notS1 notSp
  saved := h.saved

/-- What a call leaves: the sum in `a0`, and everything else as it was. -/
structure Returned (entry : Arch) (count : Nat) (t : Arch) : Prop where
  pc : t.pc = entry.regs.get ra &&& ~~~1
  sum : t.regs.get a0 = sumWord count
  others : ∀ r, r ≠ a0 → t.regs.get r = entry.regs.get r
  mem : t.mem = savedMem entry

theorem returned_done (h : Adding entry i s) :
    Returned entry i (execute (executeBlock s doneBlock) (.jalr x0 ra 0)) := by
  have first : loadResult .lw s.mem (s.regs.get sp + 0) = entry.regs.get s0 := by
    rw [add_zero, h.saved, h.stack, savedMem, lw_below, lw_stored]
  have second : loadResult .lw s.mem (s.regs.get sp + 4) = entry.regs.get s1 := by
    rw [h.saved, h.stack, savedMem, lw_stored]
  have regs : (execute (executeBlock s doneBlock) (.jalr x0 ra 0)).regs =
      ((((s.regs.set a0 (s.regs.get s0 + 0)).set s0 (loadResult .lw s.mem (s.regs.get sp + 0))).set
        s1 (loadResult .lw s.mem (s.regs.get sp + 4))).set sp (s.regs.get sp + 8)).set x0
          ((executeBlock s doneBlock).pc + 4) := rfl
  rw [first, second, set_zero] at regs
  refine ⟨?_, ?_, fun r notA0 => ?_, h.saved⟩
  · have target : (execute (executeBlock s doneBlock) (.jalr x0 ra 0)).pc =
        (s.regs.get ra + 0) &&& ~~~1 := rfl
    rw [target, add_zero, h.others ra (by decide) (by decide) (by decide)]
  · rw [regs, set_other (by decide), set_other (by decide), set_other (by decide),
      set_self (by decide), add_zero, h.result]
  · rw [regs]
    by_cases isSp : r = sp
    · subst isSp
      rw [set_self (by decide), h.stack, sub_add_cancel]
    rw [set_other isSp]
    by_cases isS1 : r = s1
    · subst isS1
      exact set_self (by decide) _
    rw [set_other isS1]
    by_cases isS0 : r = s0
    · subst isS0
      exact set_self (by decide) _
    rw [set_other isS0, set_other notA0]
    exact h.others r isS0 isS1 isSp

end Blocks

section Loop

variable {imem : BitVec 30 → Word} {base : Word} {entry s : Arch} {i count left : Nat}

theorem regs_argument (h : Adding entry i s) : s.regs.get a0 = entry.regs.get a0 :=
  h.others a0 (by decide) (by decide) (by decide)

/-- The test of the loop is a comparison of signed numbers. -/
theorem leaves_iff (h : Adding entry i s) (small : i + 1 < 2 ^ 31) :
    branchTaken .blt (s.regs.get a0) (s.regs.get s1) = true ↔ (entry.regs.get a0).toInt ≤ i := by
  have next : (s.regs.get s1).toInt = i + 1 := by
    have low : (BitVec.ofNat 32 (i + 1)).toNat = i + 1 := by
      rw [BitVec.toNat_ofNat]
      omega
    rw [h.next, BitVec.toInt_eq_toNat_of_lt (by omega), low]
    rfl
  rw [branchTaken, regs_argument h, BitVec.slt_iff_toInt_lt, next]
  omega

theorem pc_branch (here : s.pc = lineAddress base 5) :
    (execute s (.branch .blt a0 s1 16)).pc =
      if branchTaken .blt (s.regs.get a0) (s.regs.get s1) then lineAddress base 9
      else lineAddress base 6 := by
  change (if branchTaken .blt (s.regs.get a0) (s.regs.get s1) then s.pc + 16 else s.pc + 4) = _
  rw [here]
  refine if_congr Iff.rfl ?_ ?_
  · exact BitVec.add_assoc base _ _
  · exact (lineAddress_succ base 5).symm

/-- One pass. -/
theorem pass (placed : Placed imem base sumProgram) (here : s.pc = lineAddress base 5)
    (stays : branchTaken .blt (s.regs.get a0) (s.regs.get s1) = false)
    (adding : Adding entry i s) :
    ∃ t, Walks imem base s t [5, 6, 7, 8] ∧ t.pc = lineAddress base 5 ∧
      Adding entry (i + 1) t := by
  have test := placed.one (i := .branch .blt a0 s1 16) rfl here
  have pc := pc_branch here
  rw [stays] at pc
  obtain ⟨moved, next⟩ := placed.block addBlock
    (fun j inside => by
      match j, inside with
      | 0, _ | 1, _ => rfl) (by decide) pc
  have jump := placed.one (i := .jal x0 (-12)) rfl next
  have added := adding_add (adding.of_regs (regs_of_branch .blt a0 s1 16 s)
    (mem_of_other (by simp) s))
  generalize executeBlock (execute s (.branch .blt a0 s1 16)) addBlock = u at *
  refine ⟨_, (test.trans moved).trans jump, ?_, ?_⟩
  · change u.pc + -12 = lineAddress base 5
    rw [next]
    exact BitVec.add_assoc base _ _
  · exact added.of_regs (regs_of_jump (-12) u) (mem_of_other (by simp) u)

/-- The loop is left when `i` has gone past the argument. -/
theorem loop_run (placed : Placed imem base sumProgram) (here : s.pc = lineAddress base 5)
    (adding : Adding entry i s) (argument : (entry.regs.get a0).toInt.toNat = i + left)
    (small : i + left + 1 < 2 ^ 31) :
    ∃ t lines, Walks imem base s t lines ∧ lines.length = 4 * left + 1 ∧
      t.pc = lineAddress base 9 ∧ Adding entry (i + left) t := by
  have leaves := leaves_iff adding (by omega)
  have pc := pc_branch here
  induction left generalizing i s with
  | zero =>
    rw [if_pos (leaves.mpr (by omega))] at pc
    exact ⟨_, [5], placed.one (i := .branch .blt a0 s1 16) rfl here, rfl, pc,
      adding.of_regs (regs_of_branch .blt a0 s1 16 s) (mem_of_other (by simp) s)⟩
  | succ left ih =>
    have stays : branchTaken .blt (s.regs.get a0) (s.regs.get s1) = false :=
      Bool.eq_false_iff.mpr fun taken => absurd (leaves.mp taken) (by omega)
    obtain ⟨u, first, pc', added⟩ := pass placed here stays adding
    obtain ⟨t, lines, rest, length, last, final⟩ := ih pc' added (by omega) (by omega)
      (leaves_iff added (by omega)) (pc_branch pc')
    refine ⟨t, _, first.trans rest, ?_, last, ?_⟩
    · rw [List.length_append, length]
      change 4 + (4 * left + 1) = 4 * (left + 1) + 1
      omega
    · rwa [Nat.add_right_comm] at final

/-- Of the numbers none is above the largest one. -/
theorem never_leaves (largest : s.regs.get a0 = 0x7fffffff) :
    branchTaken .blt (s.regs.get a0) (s.regs.get s1) = false := by
  refine Bool.eq_false_iff.mpr fun taken => ?_
  rw [branchTaken, largest, BitVec.slt_iff_toInt_lt] at taken
  have high := BitVec.toInt_lt (x := s.regs.get s1)
  have value : (0x7fffffff : Word).toInt = 2147483647 := by decide
  omega

/-- With the largest argument the run stays in the loop. -/
theorem loop_step (placed : Placed imem base sumProgram)
    (inside : ∃ k, 5 ≤ k ∧ k < 9 ∧ s.pc = lineAddress base k)
    (largest : s.regs.get a0 = 0x7fffffff) :
    (∃ k, 5 ≤ k ∧ k < 9 ∧ (step imem s).pc = lineAddress base k) ∧
      (step imem s).regs.get a0 = 0x7fffffff := by
  have run : ∀ k i, sumProgram[k]? = some i → s.pc = lineAddress base k →
      step imem s = execute s i := by
    intro k i line here
    rw [step, placed.fetch line here]
  obtain ⟨k, low, high, here⟩ := inside
  obtain rfl | rfl | rfl | rfl : k = 5 ∨ k = 6 ∨ k = 7 ∨ k = 8 := by omega
  · have pc := pc_branch here
    rw [never_leaves largest] at pc
    rw [run 5 _ rfl here]
    exact ⟨⟨6, by decide, by decide, pc⟩, largest⟩
  · rw [run 6 _ rfl here]
    refine ⟨⟨7, by decide, by decide, ?_⟩, (set_other (by decide) _).trans largest⟩
    rw [pc_of_straight rfl, here]
    exact (lineAddress_succ base 6).symm
  · rw [run 7 _ rfl here]
    refine ⟨⟨8, by decide, by decide, ?_⟩, (set_other (by decide) _).trans largest⟩
    rw [pc_of_straight rfl, here]
    exact (lineAddress_succ base 7).symm
  · rw [run 8 _ rfl here, regs_of_jump]
    refine ⟨⟨5, by decide, by decide, ?_⟩, largest⟩
    change s.pc + -12 = lineAddress base 5
    rw [here]
    exact BitVec.add_assoc base _ _

end Loop

section Call

variable {imem : BitVec 30 → Word} {base : Word} {s : Arch}

theorem enter_run (placed : Placed imem base sumProgram) (here : s.pc = base) :
    Walks imem base s (executeBlock s enterBlock) (List.range' 0 5) ∧
      (executeBlock s enterBlock).pc = lineAddress base 5 := by
  have first : s.pc = lineAddress base 0 := by
    rw [here]
    exact (BitVec.add_zero base).symm
  exact placed.block enterBlock
    (fun j inside => by
      match j, inside with
      | 0, _ | 1, _ | 2, _ | 3, _ | 4, _ => rfl) (by decide) first

theorem returns_below (placed : Placed imem base sumProgram) (here : s.pc = base)
    (less : s.regs.get a0 ≠ 0x7fffffff) : Returned s (s.regs.get a0).toInt.toNat
      (seqRun imem s (4 * (s.regs.get a0).toInt.toNat + 11)) := by
  obtain ⟨enter, pc⟩ := enter_run placed here
  have small : (s.regs.get a0).toInt.toNat + 1 < 2 ^ 31 := by
    have high := BitVec.toInt_lt (x := s.regs.get a0)
    have value : (0x7fffffff : Word).toInt = 2147483647 := by decide
    have different : (s.regs.get a0).toInt ≠ (0x7fffffff : Word).toInt :=
      fun same => less (BitVec.eq_of_toInt_eq same)
    omega
  obtain ⟨t, lines, loop, length, done, added⟩ :=
    loop_run placed pc (adding_enter s) (Nat.zero_add _).symm (by omega)
  obtain ⟨finish, last⟩ := placed.block doneBlock
    (fun j inside => by
      match j, inside with
      | 0, _ | 1, _ | 2, _ | 3, _ => rfl) (by decide) done
  have back := placed.one (i := .jalr x0 ra 0) rfl last
  obtain ⟨run, -⟩ := ((enter.trans loop).trans finish).trans back
  have steps : ((((List.range' 0 5 ++ lines) ++ List.range' 9 4) ++ [13]).map
      (lineAddress base)).length = 4 * (s.regs.get a0).toInt.toNat + 11 := by
    rw [List.length_map, List.length_append, List.length_append, List.length_append, length]
    change 5 + (_ + 1) + 4 + 1 = _
    omega
  rw [Nat.zero_add] at added
  have returned := returned_done added
  rw [← run] at returned
  rw [← steps]
  exact returned

theorem stays_largest (placed : Placed imem base sumProgram) (here : s.pc = base)
    (largest : s.regs.get a0 = 0x7fffffff) (n : Nat) :
    ∃ k < 9, (seqRun imem s n).pc = lineAddress base k := by
  obtain ⟨enter, pc⟩ := enter_run placed here
  by_cases early : n < 5
  · refine ⟨n, by omega, ?_⟩
    have line := walks_pc enter (show n < (List.range' 0 5).length from early)
    rwa [List.getElem_range', Nat.zero_add, Nat.one_mul] at line
  · obtain ⟨m, rfl⟩ := Nat.exists_eq_add_of_le (Nat.le_of_not_lt early)
    have start : seqRun imem s 5 = executeBlock s enterBlock := enter.1
    have stays : (∃ k, 5 ≤ k ∧ k < 9 ∧ (seqRun imem s (5 + m)).pc = lineAddress base k) ∧
        (seqRun imem s (5 + m)).regs.get a0 = 0x7fffffff := by
      induction m with
      | zero =>
        rw [Nat.add_zero, start]
        exact ⟨⟨5, by decide, by decide, pc⟩, (regs_argument (adding_enter s)).trans largest⟩
      | succ m ih =>
        obtain ⟨inside, argument⟩ := ih (by omega)
        exact loop_step placed inside argument
    obtain ⟨k, -, high, line⟩ := stays.1
    exact ⟨k, high, line⟩

/-- A call returns to its caller after `4 n + 11` instructions, with the sum of the numbers up to
the argument `n` (none, if it is negative), unless the argument is the largest number. Then the
run never leaves the first nine instructions. -/
theorem sum_call (placed : Placed imem base sumProgram) (here : s.pc = base) :
    (s.regs.get a0 ≠ 0x7fffffff → Returned s (s.regs.get a0).toInt.toNat
      (seqRun imem s (4 * (s.regs.get a0).toInt.toNat + 11))) ∧
    (s.regs.get a0 = 0x7fffffff → ∀ n, ∃ k < 9, (seqRun imem s n).pc = lineAddress base k) :=
  ⟨returns_below placed here, stays_largest placed here⟩

/-- The call of sumtest.S, for 4. -/
def sampleCall : Arch where
  pc := 0
  regs := Regs.ofArray fun r => if r = a0 then 4 else if r = ra then 0x1c else 0x200
  mem _ := 0

theorem sum_call_four : (seqRun sumImage sampleCall 27).pc = 0x1c ∧
    (seqRun sumImage sampleCall 27).regs.get a0 = 10 ∧
    (seqRun sumImage sampleCall 27).regs.get sp = 0x200 := by
  have returned := (sum_call (s := sampleCall) sumImage_placed rfl).1 (by decide)
  have steps : 4 * (sampleCall.regs.get a0).toInt.toNat + 11 = 27 := by decide
  rw [steps] at returned
  obtain ⟨pc, sum, others, -⟩ := returned
  exact ⟨pc.trans (by decide), sum.trans (by decide), others sp (by decide)⟩

end Call

end RiscvLab.Sum
