import RiscvLab.Lib.ShiftRegister
import RiscvLab.Runtime.Printf

/-!
# The pseudorandom sequence

`lfsr` of lab1/common/util.h is a shift register with 63 cells in a 64-bit number. Whatever
number but 0 the sequence starts from, it goes through all other numbers that the register can
hold before it repeats.
-/
namespace RiscvLab.Runtime
open Function RiscvLab.Lib.ShiftRegister

def lfsr (x : Word64) : Word64 :=
  let bit := (x ^^^ x >>> 1) &&& 1
  x >>> 1 ||| bit <<< 62

section Cells

variable {x y : Word64}

theorem getLsbD_lfsr (x : Word64) (i : Nat) : (lfsr x).getLsbD i =
    (x.getLsbD (i + 1) || (decide (i = 62) && (x.getLsbD 0 ^^ x.getLsbD 1))) := by
  have feedback : ∀ k, ((x ^^^ x >>> 1) &&& 1).getLsbD k =
      (decide (k = 0) && (x.getLsbD 0 ^^ x.getLsbD 1)) := by
    intro k
    rw [BitVec.getLsbD_and, BitVec.getLsbD_xor, BitVec.getLsbD_ushiftRight]
    cases k with
    | zero => exact Bool.and_comm _ _
    | succ k =>
      have high : (1 : Word64).getLsbD (k + 1) = false := by
        change Nat.testBit 1 (k + 1) = false
        rw [Nat.testBit_add_one]
        exact Nat.zero_testBit k
      rw [high, Bool.and_false]
      rfl
  have place : (decide (i < 64) && !decide (i < 62) && decide (i - 62 = 0)) =
      decide (i = 62) := by
    rw [Bool.eq_iff_iff]
    simp only [Bool.and_eq_true, Bool.not_eq_true', decide_eq_true_eq, decide_eq_false_iff_not]
    omega
  unfold lfsr
  dsimp only
  rw [BitVec.getLsbD_or, BitVec.getLsbD_ushiftRight, BitVec.getLsbD_shiftLeft, feedback,
    Nat.add_comm 1, ← Bool.and_assoc, place]

/-- The cells of the register, the one that is shifted out first. -/
def cells (x : Word64) : Fin 63 → ZMod 2 := fun i => bit x.toNat i

/-- A number that the register can hold. -/
def Held (x : Word64) : Prop := x.getLsbD 63 = false

theorem held_iff : Held x ↔ x.toNat < 2 ^ 63 := by
  unfold Held
  rw [← BitVec.msb_eq_getLsbD_last, BitVec.msb_eq_false_iff_two_mul_lt]
  omega

theorem held_lfsr (x : Word64) : Held (lfsr x) := by
  unfold Held
  rw [getLsbD_lfsr, BitVec.getLsbD_of_ge x 64 (by decide)]
  rfl

theorem cells_injective (first : Held x) (second : Held y) (same : cells x = cells y) : x = y := by
  refine BitVec.eq_of_getLsbD_eq fun i inside => ?_
  by_cases last : i = 63
  · rw [last]
    exact first.trans second.symm
  · have one : (1 : ZMod 2) ≠ 0 := by decide
    have cell := congrFun same ⟨i, by omega⟩
    change (if x.getLsbD i then (1 : ZMod 2) else 0) = if y.getLsbD i then 1 else 0 at cell
    cases left : x.getLsbD i <;> cases right : y.getLsbD i <;> rw [left, right] at cell
    · exact absurd cell.symm one
    · exact absurd cell one

theorem cells_zero : cells 0 = 0 := funext fun i => if_neg (by
  change ¬ Nat.testBit 0 i = true
  rw [Nat.zero_testBit]
  decide)

/-- The register is tapped at its two lowest cells. -/
theorem sum_taps (cells : Fin 63 → ZMod 2) :
    ∑ j : Fin 63, bit 3 j * cells j = cells 0 + cells 1 := by
  have others : ∀ i : Fin 61, bit 3 i.succ.succ * cells i.succ.succ = 0 := by
    intro i
    have untapped : bit 3 i.succ.succ = 0 := by
      rw [Fin.val_succ, Fin.val_succ, bit_succ, bit_succ, bit, Nat.zero_testBit]
      rfl
    rw [untapped, zero_mul]
  rw [Fin.sum_univ_succ, Fin.sum_univ_succ, Finset.sum_eq_zero fun i _ => others i, add_zero]
  exact congrArg₂ (· + ·) (one_mul _) (one_mul _)

theorem cells_lfsr (held : Held x) : cells (lfsr x) = shift 63 3 (cells x) := by
  funext i
  have cell : cells (lfsr x) i = if (lfsr x).getLsbD i then 1 else 0 := rfl
  rw [cell, shift_apply, getLsbD_lfsr]
  by_cases inside : (i : Nat) + 1 < 63
  · have before : ¬ (i : Nat) = 62 := by omega
    rw [dif_pos inside, decide_eq_false before, Bool.false_and, Bool.or_false]
    rfl
  · have here : (i : Nat) = 62 := by omega
    have top : x.getLsbD 63 = false := held
    rw [dif_neg inside, here, top, sum_taps]
    change (if (x.getLsbD 0 ^^ x.getLsbD 1) then (1 : ZMod 2) else 0) =
      (if x.getLsbD 0 then 1 else 0) + if x.getLsbD 1 then 1 else 0
    cases x.getLsbD 0 <;> cases x.getLsbD 1 <;> decide

theorem lfsr_zero_iff : lfsr x = 0 ↔ x = 0 := by
  refine ⟨fun zero => ?_, fun zero => by rw [zero]; rfl⟩
  have bits : ∀ i, (x.getLsbD (i + 1) ||
      (decide (i = 62) && (x.getLsbD 0 ^^ x.getLsbD 1))) = false := by
    intro i
    rw [← getLsbD_lfsr, zero]
    exact BitVec.getLsbD_zero
  have shifted : ∀ i, x.getLsbD (i + 1) = false := fun i => (Bool.or_eq_false_iff.mp (bits i)).1
  have last : x.getLsbD 0 = false := by
    have feedback := bits 62
    rwa [shifted, shifted 0, Bool.xor_false] at feedback
  refine BitVec.eq_of_getLsbD_eq fun i inside => ?_
  refine Eq.trans ?_ BitVec.getLsbD_zero.symm
  cases i with
  | zero => exact last
  | succ i => exact shifted i

end Cells

section Period

/-- The prime factors of 2^63 - 1, with inverses of what one period less by the factor leaves. -/
def factors : List (Nat × Nat) := [
  (7, 77692853498478821), (73, 77975174494975411), (127, 1331185754538942234),
  (337, 1606996623144895580), (92737, 5048504963276231146), (649657, 7285145052996081200)]

theorem factors_complete {p : Nat} (prime : p.Prime) (divides : p ∣ 2 ^ 63 - 1) :
    ∃ f ∈ factors, f.1 = p := by
  have whole : 2 ^ 63 - 1 = 7 * (factors.map Prod.fst).prod := by decide
  have primes : ∀ f ∈ factors, f.1.Prime := by
    intro f listed
    simp only [factors, List.mem_cons, List.not_mem_nil, or_false] at listed
    rcases listed with rfl | rfl | rfl | rfl | rfl | rfl <;> norm_num
  have found : ∃ f ∈ factors, p ∣ f.1 := by
    rw [whole, prime.dvd_mul] at divides
    rcases divides with seven | rest
    · exact ⟨(7, 77692853498478821), List.mem_cons_self, seven⟩
    · obtain ⟨a, listed, divides⟩ := (Prime.dvd_prod_iff prime.prime).mp rest
      obtain ⟨f, inside, rfl⟩ := List.mem_map.mp listed
      exact ⟨f, inside, divides⟩
  obtain ⟨f, listed, divides⟩ := found
  exact ⟨f, listed, ((Nat.prime_dvd_prime_iff_eq prime (primes f listed)).mp divides).symm⟩

theorem fullPeriod : FullPeriod 63 3 factors where
  back := by decide +kernel
  inverse := by decide +kernel
  complete _ := factors_complete

theorem minimalPeriod_lfsr {x : Word64} (held : Held x) (nonzero : x ≠ 0) :
    minimalPeriod lfsr x = 2 ^ 63 - 1 := by
  have steps : ∀ n, Held (lfsr^[n] x) ∧
      cells (lfsr^[n] x) = (shift 63 3)^[n] (cells x) := by
    intro n
    induction n with
    | zero => exact ⟨held, rfl⟩
    | succ n ih =>
      obtain ⟨inside, same⟩ := ih
      rw [iterate_succ_apply', iterate_succ_apply', ← same]
      exact ⟨held_lfsr _, cells_lfsr inside⟩
  have state : cells x ≠ 0 :=
    fun zero => nonzero (cells_injective held rfl (zero.trans cells_zero.symm))
  rw [← minimalPeriod_shift fullPeriod state]
  refine minimalPeriod_eq_minimalPeriod_iff.mpr fun n => ⟨fun back => ?_, fun back => ?_⟩
  · exact (steps n).2.symm.trans (congrArg cells back)
  · exact cells_injective (steps n).1 held ((steps n).2.trans back)

/-- From every number but 0 on, `lfsr` has the period 2^63 - 1 after its first step, and comes to
all numbers below 2^63 but 0. -/
theorem lfsr_period {x : Word64} (nonzero : x ≠ 0) :
    minimalPeriod lfsr (lfsr x) = 2 ^ 63 - 1 ∧
      ∀ y : Word64, y ≠ 0 → y.toNat < 2 ^ 63 →
        ∃ n < 2 ^ 63 - 1, lfsr^[n] (lfsr x) = y := by
  have start : Held (lfsr x) ∧ lfsr x ≠ 0 :=
    ⟨held_lfsr x, fun zero => nonzero (lfsr_zero_iff.mp zero)⟩
  have period := minimalPeriod_lfsr start.1 start.2
  refine ⟨period, fun y other fits => ?_⟩
  refine exists_iterate (fun y => Held y ∧ y ≠ 0) (fun y => y.toNat - 1) start ?_ ?_ ?_ period
    ⟨held_iff.mpr fits, other⟩
  · rintro y ⟨-, other⟩
    exact ⟨held_lfsr y, fun zero => other (lfsr_zero_iff.mp zero)⟩
  · rintro y ⟨held, -⟩
    have bound := held_iff.mp held
    change y.toNat - 1 < 2 ^ 63 - 1
    omega
  · rintro y z ⟨-, left⟩ ⟨-, right⟩ same
    have first : 0 < y.toNat := (BitVec.pos_iff_ne_zero y).mpr left
    have second : 0 < z.toNat := (BitVec.pos_iff_ne_zero z).mpr right
    change y.toNat - 1 = z.toNat - 1 at same
    exact BitVec.eq_of_toNat_eq (by omega)

theorem lfsr_period_one : minimalPeriod lfsr 0x4000000000000000 = 2 ^ 63 - 1 :=
  (lfsr_period (show (1 : Word64) ≠ 0 by decide)).1

end Period

end RiscvLab.Runtime
