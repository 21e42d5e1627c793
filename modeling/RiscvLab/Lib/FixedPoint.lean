import Mathlib.Algebra.BigOperators.Intervals
import Mathlib.Algebra.Order.BigOperators.Group.Finset
import Mathlib.Algebra.Order.Ring.Abs
import Mathlib.Data.Rat.Cast.Order
import Mathlib.Tactic.FieldSimp
import Mathlib.Tactic.Linarith
import Mathlib.Tactic.Ring

/-!
# Fixed-point numbers

A word of `f + 1` bits stands for its signed value divided by `2 ^ f`. A product has
twice as many bits and is brought back by an arithmetic shift, which rounds down, and
by dropping its upper half. These are the conditions under which that and the sums of
such products are exact, and the error of the rounding.
-/
namespace RiscvLab.Lib.FixedPoint

section Words

variable {w v : Nat}

/-- A value that fits into `w` bits as a signed number. -/
def Fits (w : Nat) (value : Int) : Prop := -2 ^ (w - 1) ≤ value ∧ value < 2 ^ (w - 1)

theorem fits_toInt (a : BitVec w) : Fits w a.toInt := ⟨BitVec.le_toInt a, BitVec.toInt_lt⟩

theorem bmod_eq_iff_fits (positive : 0 < w) (value : Int) :
    value.bmod (2 ^ w) = value ↔ Fits w value := by
  obtain ⟨k, rfl⟩ : ∃ k, w = k + 1 := ⟨w - 1, by omega⟩
  have double : ((2 ^ (k + 1) : Nat) : Int) = 2 * 2 ^ k := by
    rw [Nat.pow_succ]
    push_cast
    ring
  unfold Fits
  rw [Nat.add_sub_cancel]
  constructor
  · intro same
    have low := Int.le_bmod (x := value) (m := 2 ^ (k + 1)) (by positivity)
    have high := Int.bmod_lt (x := value) (m := 2 ^ (k + 1)) (by positivity)
    rw [same, double] at low high
    omega
  · rintro ⟨low, high⟩
    apply Int.bmod_eq_of_le_mul_two <;> rw [double] <;> omega

/-- Dropping upper bits keeps a value if it fits into the rest. -/
theorem toInt_setWidth_iff (positive : 0 < v) (le : v ≤ w) (a : BitVec w) :
    (a.setWidth v).toInt = a.toInt ↔ Fits v a.toInt := by
  have value : (a.setWidth v).toInt = a.toInt.bmod (2 ^ v) := by
    rw [BitVec.toInt_setWidth, BitVec.toInt_eq_toNat_bmod,
      Int.bmod_bmod_of_dvd (Nat.pow_dvd_pow 2 le)]
  rw [value]
  exact bmod_eq_iff_fits positive a.toInt

/-- A wrapping sum is exact if and only if the exact sum fits. -/
theorem toInt_add_iff (positive : 0 < w) (a b : BitVec w) :
    (a + b).toInt = a.toInt + b.toInt ↔ Fits w (a.toInt + b.toInt) := by
  rw [BitVec.toInt_add]
  exact bmod_eq_iff_fits positive _

/-- The product of two words fits into twice as many bits. -/
theorem fits_mul (positive : 0 < w) (a b : BitVec w) : Fits (2 * w) (a.toInt * b.toInt) := by
  obtain ⟨k, rfl⟩ : ∃ k, w = k + 1 := ⟨w - 1, by omega⟩
  have boundA : |a.toInt| ≤ 2 ^ k := abs_le.mpr ⟨BitVec.le_toInt a, (BitVec.toInt_lt).le⟩
  have boundB : |b.toInt| ≤ 2 ^ k := abs_le.mpr ⟨BitVec.le_toInt b, (BitVec.toInt_lt).le⟩
  have bound : |a.toInt * b.toInt| ≤ 2 ^ k * 2 ^ k := by
    rw [abs_mul]
    exact mul_le_mul boundA boundB (abs_nonneg _) (by positivity)
  have power : (2 : Int) ^ (2 * (k + 1) - 1) = 2 * (2 ^ k * 2 ^ k) := by
    have exponent : 2 * (k + 1) - 1 = 1 + (k + k) := by omega
    rw [exponent, pow_add, pow_add, pow_one]
  have positive : (0 : Int) < 2 ^ k * 2 ^ k := by positivity
  obtain ⟨low, high⟩ := abs_le.mp bound
  unfold Fits
  rw [power]
  constructor <;> linarith

/-- The product of two words in twice as many bits. -/
theorem toInt_mul_signExtend (positive : 0 < w) (a b : BitVec w) :
    (a.signExtend (2 * w) * b.signExtend (2 * w)).toInt = a.toInt * b.toInt := by
  have le : w ≤ 2 * w := by omega
  rw [BitVec.toInt_mul, BitVec.toInt_signExtend_of_le le, BitVec.toInt_signExtend_of_le le,
    bmod_eq_iff_fits (by omega)]
  exact fits_mul positive a b

/-- Which shift brings a product back does not show in the bits of the product. -/
theorem setWidth_ushiftRight {n : Nat} (room : n + v ≤ w) (x : BitVec w) :
    (x >>> n).setWidth v = (x.sshiftRight n).setWidth v := by
  apply BitVec.eq_of_getLsbD_eq
  intro i hi
  have inside : n + i < w := by omega
  have low : ¬ w ≤ i := by omega
  simp [BitVec.getLsbD_sshiftRight, inside, low]

end Words

section Rounding

variable {m : Nat} (a c x : Nat → Int) {d : Int}

/-- The error of a sum of rounded quotients is less than the number of the terms. -/
theorem sum_ediv_error (positive : 0 < d) (m : Nat) :
    0 ≤ (∑ i ∈ Finset.range m, a i) - d * ∑ i ∈ Finset.range m, a i / d ∧
      (∑ i ∈ Finset.range m, a i) - d * ∑ i ∈ Finset.range m, a i / d ≤ m * (d - 1) := by
  induction m with
  | zero => simp
  | succ m ih =>
    have remainder := Int.emod_add_mul_ediv (a m) d
    have low := Int.emod_nonneg (a m) positive.ne'
    have high := Int.emod_lt_of_pos (a m) positive
    rw [Finset.sum_range_succ, Finset.sum_range_succ, mul_add]
    push_cast
    constructor <;> linarith [ih.1, ih.2]

/-- The same as rational numbers. -/
theorem rat_sum_ediv_error (positive : 0 < d) (some : 0 < m) :
    0 ≤ ((∑ i ∈ Finset.range m, a i : Int) : Rat) / d - (∑ i ∈ Finset.range m, a i / d : Int) ∧
      ((∑ i ∈ Finset.range m, a i : Int) : Rat) / d - (∑ i ∈ Finset.range m, a i / d : Int) < m := by
  obtain ⟨low, high⟩ := sum_ediv_error a positive m
  have denominator : (0 : Rat) < d := by exact_mod_cast positive
  have quotient : ((∑ i ∈ Finset.range m, a i : Int) : Rat) / d -
      (∑ i ∈ Finset.range m, a i / d : Int) =
        (((∑ i ∈ Finset.range m, a i) - d * ∑ i ∈ Finset.range m, a i / d : Int) : Rat) / d := by
    push_cast
    field_simp
  have below : (∑ i ∈ Finset.range m, a i) - d * ∑ i ∈ Finset.range m, a i / d < m * d := by
    have terms : (0 : Int) < m := by exact_mod_cast some
    linarith
  rw [quotient]
  constructor
  · exact div_nonneg (by exact_mod_cast low) denominator.le
  · rw [div_lt_iff₀ denominator]
    exact_mod_cast below

/-- A rounded product with a factor between -1 and 1 is no larger than the other factor. -/
theorem abs_mul_ediv_le (positive : 0 < d) {c x : Int} (low : -d ≤ x) (high : x ≤ d) :
    |c * x / d| ≤ |c| := by
  have product : |c * x| ≤ |c| * d := by
    rw [abs_mul]
    exact mul_le_mul_of_nonneg_left (abs_le.mpr ⟨low, high⟩) (abs_nonneg c)
  obtain ⟨below, above⟩ := abs_le.mp product
  rw [abs_le]
  constructor
  · rw [Int.le_ediv_iff_mul_le positive]
    linarith
  · calc c * x / d ≤ |c| * d / d := Int.ediv_le_ediv positive above
      _ = |c| := Int.mul_ediv_cancel _ positive.ne'

/-- No partial sum of such products is larger than the sum of the factors. -/
theorem abs_sum_mul_ediv_le (positive : 0 < d) (bounded : ∀ i, -d ≤ x i ∧ x i ≤ d) (m : Nat) :
    |∑ i ∈ Finset.range m, c i * x i / d| ≤ ∑ i ∈ Finset.range m, |c i| :=
  (Finset.abs_sum_le_sum_abs _ _).trans
    (Finset.sum_le_sum fun i _ => abs_mul_ediv_le positive (bounded i).1 (bounded i).2)

end Rounding

end RiscvLab.Lib.FixedPoint
