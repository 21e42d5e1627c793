import RiscvLab.Fir.Assembly

/-!
# The loops of the assembly filter

The parts of `fir` as blocks, and from them the two loops: one iteration of the outer
loop stores one sum, and the loops together store the sums one after the other.
-/
namespace RiscvLab.Fir
open RiscvLab.Lib.Assembly

section Parts

/-- The summand that `a6` holds: the shift is a logical one. -/
def tapProduct (mem : BitVec 64 → BitVec 8) (coefficient sample : BitVec 64) : BitVec 64 :=
  ((loadWord mem sample).signExtend 64 * (loadWord mem coefficient).signExtend 64) >>> 31

/-- The registers that the inner loop reads and does not write. -/
structure Kept (before after : Reg → BitVec 64) : Prop where
  a1 : after .a1 = before .a1
  a2 : after .a2 = before .a2
  t0 : after .t0 = before .t0
  t1 : after .t1 = before .t1
  t2 : after .t2 = before .t2

theorem Kept.trans {g h k : Reg → BitVec 64} (first : Kept g h) (second : Kept h k) : Kept g k :=
  ⟨second.a1.trans first.a1, second.a2.trans first.a2, second.t0.trans first.t0,
    second.t1.trans first.t1, second.t2.trans first.t2⟩

variable (s : Machine 64)

theorem tapBlock_run : ∃ t, runBlock tapBlock s =
      some (t, [.read (s.get .t4), .read (s.get .t5)]) ∧
    t.pc = s.pc + 7 ∧ t.mem = s.mem ∧ Kept s.get t.get ∧
    t.get .t3 = s.get .t3 + tapProduct s.mem (s.get .t4) (s.get .t5) ∧
    t.get .t4 = s.get .t4 + 4 ∧ t.get .t5 = s.get .t5 - 4 := by
  refine ⟨_, by simp [tapBlock, runBlock, Instr.effect]; rfl, ?_⟩
  refine ⟨by simp, by simp, ⟨by simp, by simp, by simp, by simp, by simp⟩, ?_, ?_, ?_⟩
  · simp [tapProduct]
  · simp
  · simp only [Machine.get_assign, reduceCtorEq, if_false, if_true, BitVec.sub_eq_add_neg]
    rfl

theorem rowBlock_run : ∃ t, runBlock rowBlock s = some (t, []) ∧ t.pc = s.pc + 3 ∧
    t.mem = s.mem ∧ Kept s.get t.get ∧ t.get .t3 = 0 ∧ t.get .t4 = s.get .a1 ∧
    t.get .t5 = s.get .t2 := by
  refine ⟨_, by simp [rowBlock, runBlock, Instr.effect]; rfl, ?_⟩
  refine ⟨by simp, by simp, ⟨by simp, by simp, by simp, by simp, by simp⟩, ?_, ?_, ?_⟩ <;> simp

theorem storeBlock_run : ∃ t, runBlock storeBlock s = some (t, [.write (s.get .a2)]) ∧
    t.pc = s.pc + 3 ∧ t.mem = storeWord s.mem (s.get .a2) ((s.get .t3).setWidth 32) ∧
    t.get .a1 = s.get .a1 ∧ t.get .t0 = s.get .t0 ∧ t.get .t1 = s.get .t1 ∧
    t.get .a2 = s.get .a2 + 4 ∧ t.get .t2 = s.get .t2 + 4 := by
  refine ⟨_, by simp [storeBlock, runBlock, Instr.effect]; rfl, ?_⟩
  refine ⟨by simp, by simp, ?_, ?_, ?_, ?_, ?_⟩ <;> simp

/-- Where the arrays end and where the first output has its newest sample. -/
theorem initBlock_run : ∃ t, runBlock initBlock s = some (t, []) ∧ t.pc = s.pc + 19 ∧
    t.mem = s.mem ∧ t.get .a1 = s.get .a1 ∧ t.get .a2 = s.get .a2 ∧
    t.get .t0 = (s.get .a3 - s.get .a4 + 1) * 4 + s.get .a2 ∧
    t.get .t1 = s.get .a4 * 4 + s.get .a1 ∧ t.get .t2 = (s.get .a4 - 1) * 4 + s.get .a0 := by
  refine ⟨_, by simp [initBlock, runBlock, Instr.effect]; rfl, ?_⟩
  refine ⟨by simp, by simp, by simp, by simp, by simp, by simp, ?_⟩
  simp only [Machine.get_assign, reduceCtorEq, if_false, if_true, BitVec.sub_eq_add_neg]
  rfl

end Parts

section Lines

variable {s : Machine 64}

/-- Past the guard of the inner loop to its products. -/
theorem enter_tap (here : s.pc = 25) (guard : (s.get .a1).slt (s.get .t1) = true) :
    Steps firProgram s [] s.next.next := by
  have label : firProgram[s.pc]? = some (.label .fori) := line_at here rfl
  have test : firProgram[s.next.pc]? = some (.instr (.bge .a1 .t1 .donei)) :=
    line_at (congrArg (· + 1) here) rfl
  exact Steps.enter label test guard

/-- Past the guard of the outer loop to the beginning of an output. -/
theorem enter_row (here : s.pc = 20) (guard : (s.get .a2).slt (s.get .t0) = true) :
    Steps firProgram s [] s.next.next := by
  have label : firProgram[s.pc]? = some (.label .forj) := line_at here rfl
  have test : firProgram[s.next.pc]? = some (.instr (.bge .a2 .t0 .donej)) :=
    line_at (congrArg (· + 1) here) rfl
  exact Steps.enter label test guard

/-- Behind the last output the program returns. -/
theorem leave (here : s.pc = 20) (guard : (s.get .a2).slt (s.get .t0) = false) :
    Returns firProgram s [] (s.goto 42) := by
  have label : firProgram[s.pc]? = some (.label .forj) := line_at here rfl
  have test : firProgram[s.next.pc]? = some (.instr (.bge .a2 .t0 .donej)) :=
    line_at (congrArg (· + 1) here) rfl
  have last : firProgram[(s.goto 41).pc]? = some (.label .donej) := rfl
  have done : step firProgram (s.goto 41) = some (s.goto 42, []) := step_label last
  exact ⟨(Steps.exit label test guard).trans (Steps.one done), rfl⟩

/-- One product, up to the test at the end of the inner loop. -/
theorem tap_iteration (here : s.pc = 25) (guard : (s.get .a1).slt (s.get .t1) = true) :
    ∃ t, Steps firProgram s [.read (s.get .t4), .read (s.get .t5)] t ∧ t.pc = 34 ∧
      t.mem = s.mem ∧ Kept s.get t.get ∧
      t.get .t3 = s.get .t3 + tapProduct s.mem (s.get .t4) (s.get .t5) ∧
      t.get .t4 = s.get .t4 + 4 ∧ t.get .t5 = s.get .t5 - 4 := by
  obtain ⟨t, run, pc, rest⟩ := tapBlock_run s.next.next
  have first : s.next.next.pc = 27 := by rw [Machine.pc_next, Machine.pc_next, here]
  have placed : BlockAt firProgram s.next.next.pc tapBlock := by
    rw [first]
    decide
  rw [first] at pc
  exact ⟨t, (enter_tap here guard).trans (Steps.block placed run), pc, rest⟩

end Lines

section Inner

/-- A pointer that moves on by 4 stays below a limit exactly `k` times. -/
def Climbs (limit : BitVec 64) : BitVec 64 → Nat → Prop
  | p, 0 => p.slt limit = false
  | p, k + 1 => p.slt limit = true ∧ Climbs limit (p + 4) k

/-- The sum of `k` products from the two pointers on. -/
def tapSum (mem : BitVec 64 → BitVec 8) : BitVec 64 → BitVec 64 → Nat → BitVec 64
  | _, _, 0 => 0
  | c, x, k + 1 => tapProduct mem c x + tapSum mem (c + 4) (x - 4) k

def tapReads : BitVec 64 → BitVec 64 → Nat → List (Access 64)
  | _, _, 0 => []
  | c, x, k + 1 => [.read c, .read x] ++ tapReads (c + 4) (x - 4) k

/-- The inner loop, which makes one product more than its last test lets pass. -/
theorem inner_loop (k : Nat) {s : Machine 64} (here : s.pc = 25)
    (guard : (s.get .a1).slt (s.get .t1) = true)
    (climbs : Climbs (s.get .t1) (s.get .t4 + 4) k) :
    ∃ t, Steps firProgram s (tapReads (s.get .t4) (s.get .t5) (k + 1)) t ∧ t.pc = 35 ∧
      t.mem = s.mem ∧ Kept s.get t.get ∧
      t.get .t3 = s.get .t3 + tapSum s.mem (s.get .t4) (s.get .t5) (k + 1) := by
  induction k generalizing s with
  | zero =>
    obtain ⟨t, run, pc, mem, kept, sum, t4, t5⟩ := tap_iteration here guard
    have test : firProgram[t.pc]? = some (.instr (.blt .t4 .t1 .fori)) := line_at pc rfl
    have passed := step_blt test
    have last : (t.get .t4).slt (t.get .t1) = false := by rw [t4, kept.t1]; exact climbs
    rw [last, if_neg Bool.false_ne_true] at passed
    refine ⟨t.next, run.trans (Steps.one passed), by rw [Machine.pc_next, pc], mem, kept, ?_⟩
    have single : tapSum s.mem (s.get .t4) (s.get .t5) (0 + 1) =
        tapProduct s.mem (s.get .t4) (s.get .t5) := BitVec.add_zero _
    rw [Machine.get_next, sum, single]
  | succ k ih =>
    obtain ⟨t, run, pc, mem, kept, sum, t4, t5⟩ := tap_iteration here guard
    have test : firProgram[t.pc]? = some (.instr (.blt .t4 .t1 .fori)) := line_at pc rfl
    have jumped := step_blt test
    have more : (t.get .t4).slt (t.get .t1) = true := by rw [t4, kept.t1]; exact climbs.1
    rw [more, if_pos rfl] at jumped
    have again : (t.goto (target firProgram .fori)).pc = 25 := rfl
    have stillGuard : ((t.goto (target firProgram .fori)).get .a1).slt
        ((t.goto (target firProgram .fori)).get .t1) = true := by
      rw [Machine.get_goto, Machine.get_goto, kept.a1, kept.t1]
      exact guard
    have stillClimbs : Climbs ((t.goto (target firProgram .fori)).get .t1)
        ((t.goto (target firProgram .fori)).get .t4 + 4) k := by
      rw [Machine.get_goto, Machine.get_goto, kept.t1, t4]
      exact climbs.2
    obtain ⟨u, run', pc', mem', kept', sum'⟩ := ih again stillGuard stillClimbs
    rw [Machine.get_goto, Machine.get_goto, t4, t5] at run'
    rw [Machine.get_goto, Machine.get_goto, Machine.get_goto, Machine.mem_goto, sum, t4, t5,
      mem] at sum'
    refine ⟨u, ?_, pc', mem'.trans mem, kept.trans kept', ?_⟩
    · exact run.trans ((Steps.one jumped).trans run')
    · rw [sum', BitVec.add_assoc]
      rfl

end Inner

section Outer

/-- The memory after `k` outputs of `m` products each. -/
def rowsMem (c : BitVec 64) (m : Nat) :
    (BitVec 64 → BitVec 8) → BitVec 64 → BitVec 64 → Nat → BitVec 64 → BitVec 8
  | mem, _, _, 0 => mem
  | mem, y, x, k + 1 =>
    rowsMem c m (storeWord mem y ((tapSum mem c x m).setWidth 32)) (y + 4) (x + 4) k

def rowsAccesses (c : BitVec 64) (m : Nat) : BitVec 64 → BitVec 64 → Nat → List (Access 64)
  | _, _, 0 => []
  | y, x, k + 1 => tapReads c x m ++ [.write y] ++ rowsAccesses c m (y + 4) (x + 4) k

variable {s : Machine 64} {k : Nat}

/-- One iteration of the outer loop stores one sum. -/
theorem row_iteration (here : s.pc = 20) (guard : (s.get .a2).slt (s.get .t0) = true)
    (inner : (s.get .a1).slt (s.get .t1) = true)
    (climbs : Climbs (s.get .t1) (s.get .a1 + 4) k) :
    ∃ t, Steps firProgram s (tapReads (s.get .a1) (s.get .t2) (k + 1) ++ [.write (s.get .a2)]) t ∧
      t.pc = 20 ∧ t.mem = storeWord s.mem (s.get .a2)
        ((tapSum s.mem (s.get .a1) (s.get .t2) (k + 1)).setWidth 32) ∧
      t.get .a1 = s.get .a1 ∧ t.get .t0 = s.get .t0 ∧ t.get .t1 = s.get .t1 ∧
      t.get .a2 = s.get .a2 + 4 ∧ t.get .t2 = s.get .t2 + 4 := by
  obtain ⟨t, start, pc, mem, kept, t3, t4, t5⟩ := rowBlock_run s.next.next
  have first : s.next.next.pc = 22 := by rw [Machine.pc_next, Machine.pc_next, here]
  have placed : BlockAt firProgram s.next.next.pc rowBlock := by
    rw [first]
    decide
  rw [first] at pc
  simp only [Machine.get_next, Machine.mem_next] at mem t4 t5
  have kept' : Kept s.get t.get := kept
  have entered := (enter_row here guard).trans (Steps.block placed start)
  obtain ⟨u, taps, pc', mem', kept'', sum⟩ := inner_loop k pc
    (by rw [kept'.a1, kept'.t1]; exact inner) (by rw [kept'.t1, t4]; exact climbs)
  rw [t4, t5] at taps
  rw [t3, mem, t4, t5] at sum
  have total := sum.trans (BitVec.zero_add _)
  have all := kept'.trans kept''
  obtain ⟨v, stored, pc'', mem'', a1, t0, t1, a2, t2⟩ := storeBlock_run u
  have placed' : BlockAt firProgram u.pc storeBlock := by
    rw [pc']
    decide
  have jump : firProgram[v.pc]? = some (.instr (.j .forj)) := by
    rw [pc'', pc']
    rfl
  have finish := (Steps.block placed' stored).trans (Steps.one (step_j jump))
  rw [all.a2] at finish a2 mem''
  refine ⟨v.goto (target firProgram .forj), entered.trans (taps.trans finish), rfl, ?_,
    a1.trans all.a1, t0.trans all.t0, t1.trans all.t1, a2, ?_⟩
  · rw [Machine.mem_goto, mem'', mem', mem, total]
  · rw [Machine.get_goto, t2, all.t2]

/-- The outer loop stores its sums one after the other and returns. -/
theorem outer_loop (rows : Nat) {s : Machine 64} (here : s.pc = 20)
    (inner : (s.get .a1).slt (s.get .t1) = true)
    (climbs : Climbs (s.get .t1) (s.get .a1 + 4) k)
    (outer : Climbs (s.get .t0) (s.get .a2) rows) :
    ∃ t, Returns firProgram s (rowsAccesses (s.get .a1) (k + 1) (s.get .a2) (s.get .t2) rows) t ∧
      t.mem = rowsMem (s.get .a1) (k + 1) s.mem (s.get .a2) (s.get .t2) rows := by
  induction rows generalizing s with
  | zero => exact ⟨s.goto 42, leave here outer, rfl⟩
  | succ rows ih =>
    obtain ⟨t, run, pc, mem, a1, t0, t1, a2, t2⟩ := row_iteration here outer.1 inner climbs
    rw [← a1, ← t1] at inner climbs
    have onward := outer.2
    rw [← a2, ← t0] at onward
    obtain ⟨u, ⟨run', ended⟩, mem'⟩ := ih pc inner climbs onward
    rw [a1, a2, t2] at run' mem'
    rw [mem] at mem'
    exact ⟨u, ⟨run.trans run', ended⟩, mem'⟩

end Outer

section Entry

/-- From the call to the outer loop. -/
theorem enter_loops {s : Machine 64} (entry : AtEntry s) :
    ∃ t, Steps firProgram s [] t ∧ t.pc = 20 ∧ t.mem = s.mem ∧ t.get .a1 = s.get .a1 ∧
      t.get .a2 = s.get .a2 ∧ t.get .t0 = (s.get .a3 - s.get .a4 + 1) * 4 + s.get .a2 ∧
      t.get .t1 = s.get .a4 * 4 + s.get .a1 ∧
      t.get .t2 = (s.get .a4 - 1) * 4 + s.get .a0 := by
  have label : firProgram[s.pc]? = some (.label .fir) := by
    rw [show s.pc = 0 from entry]
    rfl
  obtain ⟨t, run, pc, rest⟩ := initBlock_run s.next
  have first : s.next.pc = 1 := congrArg (· + 1) entry
  have placed : BlockAt firProgram s.next.pc initBlock := by
    rw [first]
    decide
  rw [first] at pc
  exact ⟨t, (Steps.one (step_label label)).trans (Steps.block placed run), pc, rest⟩

end Entry

end RiscvLab.Fir
