import Mathlib.Algebra.Group.Basic
import Mathlib.Data.Nat.Init

/-!
# Multiplication by shifting and adding

In each round the accumulator takes the multiplicand if the multiplier is odd; then the
multiplicand is doubled and the multiplier halved. The rounds go on until the multiplier
is 0. Nothing is asked of the accumulator but a commutative addition, so that it may wrap.
-/
namespace RiscvLab.Lib.ShiftAdd

structure State (M : Type*) where
  acc : M
  mcand : M
  mplier : Nat

section Rounds

variable {M : Type*} [AddCommMonoid M] (s : State M)

def State.next : State M where
  acc := if s.mplier % 2 = 1 then s.acc + s.mcand else s.acc
  mcand := s.mcand + s.mcand
  mplier := s.mplier / 2

/-- What the accumulator holds in the end. -/
def State.value : M := s.acc + s.mplier • s.mcand

/-- No round changes the value. -/
theorem value_next : s.next.value = s.value := by
  have double : (s.mplier / 2) • (s.mcand + s.mcand) = (2 * (s.mplier / 2)) • s.mcand := by
    rw [← two_nsmul, ← mul_nsmul]
  change (if s.mplier % 2 = 1 then s.acc + s.mcand else s.acc) +
    (s.mplier / 2) • (s.mcand + s.mcand) = s.acc + s.mplier • s.mcand
  rw [double]
  by_cases odd : s.mplier % 2 = 1
  · have split : s.mplier = 1 + 2 * (s.mplier / 2) := by omega
    have total : s.mplier • s.mcand = s.mcand + (2 * (s.mplier / 2)) • s.mcand := by
      rw [← one_nsmul s.mcand, ← mul_nsmul, ← mul_nsmul, ← add_nsmul, Nat.one_mul, Nat.one_mul,
        ← split]
    rw [if_pos odd, total, add_assoc]
  · have even : 2 * (s.mplier / 2) = s.mplier := by omega
    rw [if_neg odd, even]

theorem acc_of_zero (done : s.mplier = 0) : s.acc = s.value := by
  rw [State.value, done, zero_nsmul, add_zero]

end Rounds

section Count

/-- Without another bit this is the last round. -/
theorem log2_last {m : Nat} (last : m / 2 = 0) : m.log2 = 0 := by
  rw [Nat.log2_def, if_neg (by omega)]

theorem log2_more {m : Nat} (more : m / 2 ≠ 0) : m.log2 = (m / 2).log2 + 1 := by
  rw [Nat.log2_def, if_pos (by omega)]

end Count

end RiscvLab.Lib.ShiftAdd
