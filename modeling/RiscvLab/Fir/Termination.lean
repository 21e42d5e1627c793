import Mathlib.Data.BitVec
import RiscvLab.Fir.Loops

/-!
# When the assembly filter returns

The outer loop moves on only behind an inner loop that was entered. If there is an output
to compute and the guard of the inner loop fails, `donei` jumps back to the outer loop
with nothing changed.
-/
namespace RiscvLab.Fir
open RiscvLab.Lib.Assembly

section Distance

theorem toInt_add_four {p limit : BitVec 64} (below : p.toInt + 4 ≤ limit.toInt) :
    (p + 4).toInt = p.toInt + 4 := by
  have high : limit.toInt < 2 ^ 63 := BitVec.toInt_lt
  have low : -2 ^ 63 ≤ p.toInt := BitVec.le_toInt p
  have four : (4 : BitVec 64).toInt = 4 := rfl
  rw [BitVec.toInt_add, four]
  apply Int.bmod_eq_of_le_mul_two <;> omega

theorem climbs_of_toInt (k : Nat) {limit p : BitVec 64} (distance : limit.toInt = p.toInt + 4 * k) :
    Climbs limit p k := by
  induction k generalizing p with
  | zero =>
    rw [Climbs, BitVec.slt_eq_decide]
    exact decide_eq_false (by omega)
  | succ k ih =>
    push_cast at distance
    have next := toInt_add_four (by omega : p.toInt + 4 ≤ limit.toInt)
    refine ⟨?_, ih (by omega)⟩
    rw [BitVec.slt_eq_decide]
    exact decide_eq_true (by omega)

/-- A limit that is a multiple of 4 away and not below is reached. -/
theorem distance_of_slt {p q : BitVec 64} (below : p.slt (q * 4 + p) = true) :
    ∃ k : Nat, (q * 4 + p).toInt = p.toInt + 4 * (k + 1 : Nat) := by
  rw [BitVec.slt_eq_decide, decide_eq_true_iff] at below
  have sum : (q * 4 + p).toNat = (q.toNat * 4 + p.toNat) % 2 ^ 64 := by
    have four : (4 : BitVec 64).toNat = 4 := rfl
    rw [BitVec.toNat_add, BitVec.toNat_mul, four]
    omega
  have now := BitVec.toInt_eq_toNat_cond p
  have after := BitVec.toInt_eq_toNat_cond (q * 4 + p)
  have small := p.isLt
  rw [sum] at after
  refine ⟨(((q * 4 + p).toInt - p.toInt) / 4 - 1).toNat, ?_⟩
  split at now <;> split at after <;> omega

end Distance

section Stuck

/-- At the outer loop with an output to compute and no product to make. -/
structure Stuck (s : Machine 64) : Prop where
  line : s.pc = 20
  outer : (s.get .a2).slt (s.get .t0) = true
  inner : (s.get .a1).slt (s.get .t1) = false

/-- The way through `donei` leads back with nothing done. -/
theorem Stuck.cycle {s : Machine 64} (h : Stuck s) : ∃ first t rest u,
    Steps firProgram s first t ∧ t.pc ≠ s.pc ∧ Steps firProgram t rest u ∧ Stuck u := by
  obtain ⟨here, outer, inner⟩ := h
  obtain ⟨t, row, pc, -, kept, -⟩ := rowBlock_run s.next.next
  have first : s.next.next.pc = 22 := by rw [Machine.pc_next, Machine.pc_next, here]
  have placed : BlockAt firProgram s.next.next.pc rowBlock := by
    rw [first]
    decide
  rw [first] at pc
  have none : (t.get .a1).slt (t.get .t1) = false := by
    rw [kept.a1, kept.t1]
    exact inner
  have label : firProgram[t.pc]? = some (.label .fori) := line_at pc rfl
  have test : firProgram[t.next.pc]? = some (.instr (.bge .a1 .t1 .donei)) :=
    line_at (congrArg (· + 1) pc) rfl
  have skipped : firProgram[(t.goto 39).pc]? = some (.label .donei) := rfl
  have jump : firProgram[(t.goto 39).next.pc]? = some (.instr (.j .forj)) := rfl
  have back : Steps firProgram (t.goto 39) [] ((t.goto 39).next.goto 20) :=
    (Steps.one (step_label skipped)).trans (Steps.one (step_j jump))
  refine ⟨_, s.next.next, _, _, enter_row here outer, by rw [first, here]; decide,
    (Steps.block placed row).trans ((Steps.exit label test none).trans back), ⟨rfl, ?_, none⟩⟩
  rw [Machine.get_goto, Machine.get_next, Machine.get_goto, Machine.get_goto, Machine.get_next,
    Machine.get_goto, kept.a2, kept.t0]
  exact outer

theorem Stuck.not_returns {s : Machine 64} (h : Stuck s) :
    ¬ ∃ accesses t, Returns firProgram s accesses t :=
  Steps.not_returns (fun _ stuck => stuck.cycle) h

end Stuck

section Call

/-- The call of `fir` with any registers and any memory. -/
def call (regs : Reg → BitVec 64) (mem : BitVec 64 → BitVec 8) : Machine 64 :=
  ⟨target firProgram .fir, regs, mem⟩

/-- There is an output to compute, as signed addresses tell. -/
def OutputLeft (regs : Reg → BitVec 64) : Bool :=
  (regs .a2).slt ((regs .a3 - regs .a4 + 1) * 4 + regs .a2)

/-- The filter is not empty, as signed addresses tell. -/
def TapLeft (regs : Reg → BitVec 64) : Bool := (regs .a1).slt (regs .a4 * 4 + regs .a1)

variable (regs : Reg → BitVec 64) (mem : BitVec 64 → BitVec 8)

/-- The call returns if and only if there is no output to compute or the filter is not
empty. -/
theorem call_returns_iff : (∃ accesses t, Returns firProgram (call regs mem) accesses t) ↔
    (OutputLeft regs = false ∨ TapLeft regs = true) := by
  obtain ⟨t, run, pc, -, a1, a2, t0, t1, -⟩ := enter_loops (s := call regs mem) rfl
  have outer : (t.get .a2).slt (t.get .t0) = OutputLeft regs := by
    rw [a2, t0]
    rfl
  have inner : (t.get .a1).slt (t.get .t1) = TapLeft regs := by
    rw [a1, t1]
    rfl
  rw [run.returns_iff]
  cases output : OutputLeft regs with
  | false =>
    rw [output] at outer
    exact iff_of_true ⟨_, _, leave pc outer⟩ (.inl rfl)
  | true =>
    rw [output] at outer
    cases tap : TapLeft regs with
    | false =>
      rw [tap] at inner
      have stuck : Stuck t := ⟨pc, outer, inner⟩
      refine iff_of_false stuck.not_returns ?_
      rintro (none | some)
      · cases none
      · cases some
    | true =>
      rw [tap] at inner
      -- both pointers reach their ends
      obtain ⟨rows, distance⟩ := distance_of_slt (p := (call regs mem).get .a2) output
      obtain ⟨k, distance'⟩ := distance_of_slt (p := (call regs mem).get .a1) tap
      have climbs : Climbs (t.get .t0) (t.get .a2) (rows + 1) := by
        rw [a2, t0]
        exact climbs_of_toInt (rows + 1) distance
      have climbs' : Climbs (t.get .t1) (t.get .a1) (k + 1) := by
        rw [a1, t1]
        exact climbs_of_toInt (k + 1) distance'
      obtain ⟨u, returns, -⟩ := outer_loop (rows + 1) pc inner climbs'.2 climbs
      exact iff_of_true ⟨_, u, returns⟩ (.inr rfl)

/-- Arguments of the C interface: two lengths, and arrays whose ends are addresses of the
non-negative half. -/
structure InRange (regs : Reg → BitVec 64) (n m : Nat) : Prop where
  samples : regs .a3 = BitVec.ofNat 64 n
  coefficients : regs .a4 = BitVec.ofNat 64 m
  endC : (regs .a1).toNat + 4 * m < 2 ^ 63
  endY : (regs .a2).toNat + 4 * (n + 1 - m) < 2 ^ 63

theorem toInt_of_lt {v : BitVec 64} (small : v.toNat < 2 ^ 63) : v.toInt = v.toNat :=
  BitVec.toInt_eq_toNat_of_lt (by omega)

variable {regs} {n m : Nat}

/-- The end of the outputs, which lies below their beginning if the filter is longer than
the input by more than one. -/
theorem toInt_output_end (samples : regs .a3 = BitVec.ofNat 64 n)
    (coefficients : regs .a4 = BitVec.ofNat 64 m) (short : m ≤ 2 ^ 61)
    (bound : (regs .a2).toNat + 4 * (n + 1 - m) < 2 ^ 63) :
    ((regs .a3 - regs .a4 + 1) * 4 + regs .a2).toInt =
      (regs .a2).toNat + 4 * ((n : Int) + 1 - m) := by
  have one : (1 : BitVec 64).toNat = 1 := rfl
  have four : (4 : BitVec 64).toNat = 4 := rfl
  rw [BitVec.toInt_eq_toNat_cond, samples, coefficients, BitVec.toNat_add, BitVec.toNat_mul,
    BitVec.toNat_add, BitVec.toNat_sub, BitVec.toNat_ofNat, BitVec.toNat_ofNat, one, four]
  split <;> omega

namespace InRange

theorem filter_end (h : InRange regs n m) :
    (regs .a4 * 4 + regs .a1).toNat = (regs .a1).toNat + 4 * m := by
  have bound := h.endC
  have four : (4 : BitVec 64).toNat = 4 := rfl
  rw [h.coefficients, BitVec.toNat_add, BitVec.toNat_mul, BitVec.toNat_ofNat, four]
  omega

theorem toInt_filter_end (h : InRange regs n m) :
    (regs .a4 * 4 + regs .a1).toInt = (regs .a1).toInt + 4 * m := by
  have bound := h.endC
  have last := h.filter_end
  rw [toInt_of_lt (by omega), toInt_of_lt (by omega), last]
  push_cast
  rfl

theorem tapLeft_iff (h : InRange regs n m) : TapLeft regs = true ↔ 1 ≤ m := by
  rw [TapLeft, BitVec.slt_eq_decide, decide_eq_true_iff, h.toInt_filter_end]
  omega

theorem outputLeft_iff (h : InRange regs n m) : OutputLeft regs = true ↔ m ≤ n := by
  have boundC := h.endC
  have boundY := h.endY
  rw [OutputLeft, BitVec.slt_eq_decide, decide_eq_true_iff,
    Fir.toInt_output_end h.samples h.coefficients (by omega) boundY, toInt_of_lt (by omega)]
  omega

theorem toInt_output_end (h : InRange regs n m) (le : m ≤ n) :
    ((regs .a3 - regs .a4 + 1) * 4 + regs .a2).toInt =
      (regs .a2).toInt + 4 * (n + 1 - m : Nat) := by
  have boundC := h.endC
  have boundY := h.endY
  rw [Fir.toInt_output_end h.samples h.coefficients (by omega) boundY, toInt_of_lt (by omega)]
  omega

end InRange

/-- A call of `fir` returns if and only if there is no output to compute or the filter is
not empty: with arrays in the non-negative half, if and only if the filter is not empty. -/
theorem terminates_iff (regs : Reg → BitVec 64) (mem : BitVec 64 → BitVec 8) :
    ((∃ accesses t, Returns firProgram (call regs mem) accesses t) ↔
      (OutputLeft regs = false ∨ TapLeft regs = true)) ∧
    ∀ n m, InRange regs n m →
      ((∃ accesses t, Returns firProgram (call regs mem) accesses t) ↔ 1 ≤ m) := by
  refine ⟨call_returns_iff regs mem, ?_⟩
  intro n m range
  rw [call_returns_iff, range.tapLeft_iff, ← Bool.not_eq_true, range.outputLeft_iff]
  omega

/-- Arrays at 4096, 8192 and 12288 with `n` and `m` elements. -/
def exampleArgs (n m : BitVec 64) : Reg → BitVec 64
  | .a0 => 4096
  | .a1 => 8192
  | .a2 => 12288
  | .a3 => n
  | .a4 => m
  | _ => 0

/-- The lab's lengths. -/
theorem terminates_iff_twenty : InRange (exampleArgs 20 4) 20 4 ∧
    ((∃ accesses t, Returns firProgram (call (exampleArgs 20 4) fun _ => 0) accesses t) ↔ 1 ≤ 4) :=
  have range : InRange (exampleArgs 20 4) 20 4 := ⟨rfl, rfl, by decide, by decide⟩
  ⟨range, (terminates_iff (exampleArgs 20 4) fun _ => 0).2 20 4 range⟩

/-- With an empty filter the call does not return. -/
theorem terminates_not : InRange (exampleArgs 0 0) 0 0 ∧
    ¬ ∃ accesses t, Returns firProgram (call (exampleArgs 0 0) fun _ => 0) accesses t := by
  refine ⟨⟨rfl, rfl, by decide, by decide⟩, ?_⟩
  rw [call_returns_iff]
  decide

end Call

end RiscvLab.Fir
