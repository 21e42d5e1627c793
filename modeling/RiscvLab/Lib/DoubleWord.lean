import Mathlib.Data.BitVec

/-!
# Numbers in two words

Sums and doublings of numbers that stand in an upper and a lower word. The carry out of
the lower sum shows in an unsigned comparison of the sum with one of its terms.
-/
namespace RiscvLab.Lib.DoubleWord

variable {w : Nat}

/-- The carry that a comparison finds behind a sum. -/
def carryOut (sum term : BitVec w) : BitVec w := if sum.ult term then 1 else 0

section Values

variable (hi lo : BitVec w)

theorem toNat_append : (hi ++ lo).toNat = 2 ^ w * hi.toNat + lo.toNat := by
  rw [BitVec.toNat_append, ← Nat.shiftLeft_add_eq_or_of_lt lo.isLt, Nat.shiftLeft_eq, Nat.mul_comm]

/-- The lower word of a number keeps what is below `2 ^ w`, the upper word wraps. -/
theorem mod_of_split {total q r : Nat} (split : total = 2 ^ w * q + r) (small : r < 2 ^ w) :
    total % 2 ^ (w + w) = 2 ^ w * (q % 2 ^ w) + r := by
  have positive : 0 < 2 ^ w := Nat.two_pow_pos w
  rw [Nat.pow_add, Nat.mod_mul, split, Nat.mul_add_mod, Nat.mod_eq_of_lt small,
    Nat.mul_add_div positive, Nat.div_eq_of_lt small, Nat.add_zero, Nat.add_comm]

end Values

section Sums

variable (hi lo hi' lo' : BitVec w)

/-- Carry and wrapped sum are together the exact sum. -/
theorem toNat_carryOut (positive : 0 < w) :
    2 ^ w * (carryOut (lo + lo') lo').toNat + (lo + lo').toNat = lo.toNat + lo'.toNat := by
  have bound := lo.isLt
  have bound' := lo'.isLt
  have one : (1 : BitVec w).toNat = 1 := by
    have wide : 1 < 2 ^ w := Nat.one_lt_two_pow (by omega)
    exact (BitVec.toNat_ofNat 1 w).trans (Nat.mod_eq_of_lt wide)
  unfold carryOut
  rw [BitVec.ult_eq_decide, BitVec.toNat_add]
  by_cases small : lo.toNat + lo'.toNat < 2 ^ w
  · rw [Nat.mod_eq_of_lt small, if_neg (by simp)]
    simp
  · have rest : (lo.toNat + lo'.toNat) % 2 ^ w = lo.toNat + lo'.toNat - 2 ^ w := by
      rw [Nat.mod_eq_sub_mod (by omega), Nat.mod_eq_of_lt (by omega)]
    rw [rest, if_pos (decide_eq_true (by omega)), one]
    omega

/-- Addition in two words with the carry from a comparison. -/
theorem append_add (positive : 0 < w) : (hi ++ lo) + (hi' ++ lo') =
    (hi + carryOut (lo + lo') lo' + hi') ++ (lo + lo') := by
  apply BitVec.eq_of_toNat_eq
  have lower := toNat_carryOut lo lo' positive
  have split : (hi ++ lo).toNat + (hi' ++ lo').toNat =
      2 ^ w * (hi.toNat + (carryOut (lo + lo') lo').toNat + hi'.toNat) + (lo + lo').toNat := by
    rw [toNat_append, toNat_append, Nat.mul_add, Nat.mul_add]
    omega
  have upper : (hi + carryOut (lo + lo') lo' + hi').toNat =
      (hi.toNat + (carryOut (lo + lo') lo').toNat + hi'.toNat) % 2 ^ w := by
    rw [BitVec.toNat_add, BitVec.toNat_add, Nat.mod_add_mod]
  rw [BitVec.toNat_add, mod_of_split split (lo + lo').isLt, toNat_append, upper]

/-- The carry of a doubling is the highest bit. -/
theorem carryOut_double (positive : 0 < w) : carryOut (lo + lo) lo = lo >>> (w - 1) := by
  apply BitVec.eq_of_toNat_eq
  have sum := toNat_carryOut lo lo positive
  have small := (lo + lo).isLt
  have power : 2 ^ w = 2 * 2 ^ (w - 1) := by
    rw [← Nat.pow_succ', Nat.succ_eq_add_one, Nat.sub_add_cancel positive]
  rw [BitVec.toNat_ushiftRight, Nat.shiftRight_eq_div_pow]
  generalize (carryOut (lo + lo) lo).toNat = carry at sum
  have double : 2 * (2 ^ (w - 1) * carry) + (lo + lo).toNat = 2 * lo.toNat := by
    rw [← Nat.mul_assoc, ← power, sum, Nat.two_mul]
  rw [power] at small
  refine (Nat.div_eq_of_lt_le ?_ ?_).symm
  · rw [Nat.mul_comm]
    omega
  · rw [Nat.mul_comm, Nat.mul_succ]
    omega

/-- Doubling in two words by shifts. -/
theorem append_add_self (positive : 0 < w) : (hi ++ lo) + (hi ++ lo) =
    (hi <<< 1 + lo >>> (w - 1)) ++ (lo <<< 1) := by
  have double : ∀ v : BitVec w, v <<< 1 = v + v := by
    intro v
    apply BitVec.eq_of_toNat_eq
    rw [BitVec.toNat_shiftLeft, BitVec.toNat_add, Nat.shiftLeft_eq, Nat.pow_one, Nat.mul_two]
  rw [append_add hi lo hi lo positive, carryOut_double lo positive, double, double,
    BitVec.add_assoc, BitVec.add_assoc, BitVec.add_comm _ hi]

end Sums

end RiscvLab.Lib.DoubleWord
