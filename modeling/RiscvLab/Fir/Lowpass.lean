import RiscvLab.Fir.Accuracy

/-!
# The lowpass filter of main

The four coefficients of `main` add up to ten units more than one. The sum over four
samples close to either end of the range therefore overflows, with the last addition.
-/
namespace RiscvLab.Fir
open RiscvLab.Lib.ByteMemory RiscvLab.Lib.FixedPoint

/-- `lowpass` of `main`. -/
def lowpass (i : Int) : Word :=
  if i = 0 then 0x20000001
  else if i = 1 then 0x20000002
  else if i = 2 then 0x20000003
  else 0x20000004

/-- The exact sum of addition `i` for output `j`. -/
def exactSum (x c : Int → Word) (m : Int) (j i : Nat) : Int :=
  (partialSum x c m j i).toInt + (mulQ31 (c i) (x (j - i + (m - 1)))).toInt

section Products

variable (k v : Int)

/-- A quarter of a sample above the lowest one, with `k` units more in the coefficient. -/
theorem low_product (low : 0 ≤ v) (coefficient : 1 ≤ k ∧ k ≤ 4) :
    v / 4 - (2 ^ 29 + k) ≤ (2 ^ 29 + k) * (v - 2 ^ 31) / 2 ^ 31 ∧
      (v < 40 → (2 ^ 29 + k) * (v - 2 ^ 31) / 2 ^ 31 = v / 4 - (2 ^ 29 + k)) := by
  obtain ⟨one, four⟩ := coefficient
  have cases : k = 1 ∨ k = 2 ∨ k = 3 ∨ k = 4 := by omega
  rcases cases with rfl | rfl | rfl | rfl <;> omega

theorem high_product (high : 1 ≤ v) (coefficient : 1 ≤ k ∧ k ≤ 4) :
    (2 ^ 29 + k) * (2 ^ 31 - v) / 2 ^ 31 ≤ 2 ^ 29 + k - (v / 4 + 1) ∧
      (v < 40 → (2 ^ 29 + k) * (2 ^ 31 - v) / 2 ^ 31 = 2 ^ 29 + k - (v / 4 + 1)) := by
  obtain ⟨one, four⟩ := coefficient
  have cases : k = 1 ∨ k = 2 ∨ k = 3 ∨ k = 4 := by omega
  rcases cases with rfl | rfl | rfl | rfl <;> omega

/-- The product of the `i`-th coefficient with a sample. -/
def product (i : Int) (w : Int) : Int := (2 ^ 29 + (i + 1)) * w / 2 ^ 31

theorem product_low {i : Int} (tap : 0 ≤ i ∧ i ≤ 3) (b : Word) :
    (b.toInt + 2 ^ 31) / 4 - (2 ^ 29 + (i + 1)) ≤ product i b.toInt ∧
      (b.toInt + 2 ^ 31 < 40 →
        product i b.toInt = (b.toInt + 2 ^ 31) / 4 - (2 ^ 29 + (i + 1))) := by
  have above := (word_bounds b).1
  have bounds := low_product (i + 1) (b.toInt + 2 ^ 31) (by omega) (by omega)
  rw [Int.add_sub_cancel] at bounds
  exact bounds

theorem product_high {i : Int} (tap : 0 ≤ i ∧ i ≤ 3) (b : Word) :
    product i b.toInt ≤ 2 ^ 29 + (i + 1) - ((2 ^ 31 - b.toInt) / 4 + 1) ∧
      (2 ^ 31 - b.toInt < 40 →
        product i b.toInt = 2 ^ 29 + (i + 1) - ((2 ^ 31 - b.toInt) / 4 + 1)) := by
  have below : b.toInt < 2 ^ 31 := BitVec.toInt_lt
  have bounds := high_product (i + 1) (2 ^ 31 - b.toInt) (by omega) (by omega)
  have sample : (2 : Int) ^ 31 - (2 ^ 31 - b.toInt) = b.toInt := by omega
  rw [sample] at bounds
  exact bounds

/-- The whole sum fits if and only if the samples together are far enough from both
ends of the range. -/
theorem fits_products_iff (b0 b1 b2 b3 : Word) :
    Fits 32 (product 0 b0.toInt + product 1 b1.toInt + product 2 b2.toInt + product 3 b3.toInt) ↔
      10 ≤ (b0.toInt + 2 ^ 31) / 4 + (b1.toInt + 2 ^ 31) / 4 + (b2.toInt + 2 ^ 31) / 4 +
        (b3.toInt + 2 ^ 31) / 4 ∧
      7 ≤ (2 ^ 31 - b0.toInt) / 4 + (2 ^ 31 - b1.toInt) / 4 + (2 ^ 31 - b2.toInt) / 4 +
        (2 ^ 31 - b3.toInt) / 4 := by
  have low0 := product_low (i := 0) (by decide) b0
  have low1 := product_low (i := 1) (by decide) b1
  have low2 := product_low (i := 2) (by decide) b2
  have low3 := product_low (i := 3) (by decide) b3
  have high0 := product_high (i := 0) (by decide) b0
  have high1 := product_high (i := 1) (by decide) b1
  have high2 := product_high (i := 2) (by decide) b2
  have high3 := product_high (i := 3) (by decide) b3
  have range0 := fits_toInt b0
  have range1 := fits_toInt b1
  have range2 := fits_toInt b2
  have range3 := fits_toInt b3
  unfold Fits at *
  generalize product 0 b0.toInt = p0 at *
  generalize product 1 b1.toInt = p1 at *
  generalize product 2 b2.toInt = p2 at *
  generalize product 3 b3.toInt = p3 at *
  constructor
  · rintro ⟨low, high⟩
    -- near an end all products are exact
    constructor
    · by_contra few
      have equal0 := low0.2 (by omega)
      have equal1 := low1.2 (by omega)
      have equal2 := low2.2 (by omega)
      have equal3 := low3.2 (by omega)
      omega
    · by_contra few
      have equal0 := high0.2 (by omega)
      have equal1 := high1.2 (by omega)
      have equal2 := high2.2 (by omega)
      have equal3 := high3.2 (by omega)
      omega
  · rintro ⟨low, high⟩
    constructor <;> omega

end Products

section Sums

variable (x : Int → Word) (j : Nat)

theorem lowpass_toInt (i : Nat) (tap : i < 4) : (lowpass i).toInt = 2 ^ 29 + (i + 1) := by
  have cases : i = 0 ∨ i = 1 ∨ i = 2 ∨ i = 3 := by omega
  rcases cases with rfl | rfl | rfl | rfl <;> rfl

/-- Three of the coefficients are less than one together. -/
theorem lowpass_bounded : Bounded lowpass 3 := by
  unfold Bounded
  decide

theorem mulQ31_lowpass (i : Nat) (tap : i < 4) (b : Word) :
    (mulQ31 (lowpass i) b).toInt = product i b.toInt := by
  have value : (lowpass i).toInt * b.toInt / 2 ^ 31 = product i b.toInt := by
    rw [lowpass_toInt i tap, product]
  have small := abs_mul_ediv_le (by decide : (0 : Int) < 2 ^ 31) (c := (lowpass i).toInt)
    (word_bounds b).1 (word_bounds b).2
  have coefficient : |(lowpass i).toInt| ≤ 2 ^ 31 - 1 := by
    rw [lowpass_toInt i tap, abs_of_nonneg (by omega)]
    omega
  rw [(mulQ31_exact_iff _ _).mpr (fits_of_abs_le small coefficient), toInt_shifted, value]

/-- The first three additions do not overflow. -/
theorem exactSum_fits (i : Nat) (early : i < 3) : Fits 32 (exactSum x lowpass 4 j i) := by
  have small := lowpass_bounded.mono (Nat.succ_le_of_lt early)
  have here := partialSum_toInt (x := x) (m := 4) (small.mono (Nat.le_succ i)) j
  have fits := fits_sum (x := x) small 4 j
  have last := (mulQ31_exact small (Nat.lt_succ_self i) (x (j - i + (4 - 1)))).trans
    (toInt_shifted _ _)
  rw [Finset.sum_range_succ, ← here, term, ← last] at fits
  exact fits

/-- The last addition has the sum of all four products. -/
theorem exactSum_last : exactSum x lowpass 4 j 3 =
    product 0 (x (j + 3)).toInt + product 1 (x (j + 2)).toInt + product 2 (x (j + 1)).toInt +
      product 3 (x j).toInt := by
  have before := partialSum_toInt (x := x) (m := 4) lowpass_bounded j
  have terms : ∀ i : Nat, i < 4 → term x lowpass 4 j i / 2 ^ 31 =
      product i (x (j - i + (4 - 1))).toInt := by
    intro i tap
    rw [term, lowpass_toInt i tap, product]
  have index0 : (j : Int) - (0 : Nat) + (4 - 1) = j + 3 := by omega
  have index1 : (j : Int) - (1 : Nat) + (4 - 1) = j + 2 := by omega
  have index2 : (j : Int) - (2 : Nat) + (4 - 1) = j + 1 := by omega
  have index3 : (j : Int) - (3 : Nat) + (4 - 1) = j := by omega
  rw [exactSum, before, mulQ31_lowpass 3 (by decide), Finset.sum_range_succ,
    Finset.sum_range_succ, Finset.sum_range_succ, Finset.sum_range_zero, terms 0 (by decide),
    terms 1 (by decide), terms 2 (by decide), index0, index1, index2, index3]
  simp

/-- The four samples of an output are together at least ten quarters above the lowest
value and seven below the end of the range. -/
def Headroom : Prop :=
  10 ≤ ∑ t ∈ Finset.range 4, ((x (j + t)).toInt + 2 ^ 31) / 4 ∧
    7 ≤ ∑ t ∈ Finset.range 4, (2 ^ 31 - (x (j + t)).toInt) / 4

instance : Decidable (Headroom x j) := by
  unfold Headroom
  infer_instance

theorem exactSum_last_fits_iff : Fits 32 (exactSum x lowpass 4 j 3) ↔ Headroom x j := by
  rw [exactSum_last, fits_products_iff, Headroom]
  simp only [Finset.sum_range_succ, Finset.sum_range_zero, Nat.cast_zero, Nat.cast_one,
    Nat.cast_ofNat, add_zero, zero_add]
  constructor <;> rintro ⟨low, high⟩ <;> constructor <;> linarith

end Sums

/-- Filtering with the coefficients of `main` overflows in no addition if and only if
every window of four samples has headroom. -/
theorem lowpass_safe_iff (x : Int → Word) (n : Int) :
    (∀ j i : Nat, (j : Int) ≤ n - 4 → i < 4 → Fits 32 (exactSum x lowpass 4 j i)) ↔
      ∀ j : Nat, (j : Int) ≤ n - 4 → Headroom x j := by
  constructor
  · intro safe j inside
    exact (exactSum_last_fits_iff x j).mp (safe j 3 inside (by decide))
  · intro room j i inside tap
    by_cases early : i < 3
    · exact exactSum_fits x j i early
    · obtain rfl : i = 3 := by omega
      exact (exactSum_last_fits_iff x j).mpr (room j inside)

/-- Four samples of -1 overflow: the exact sum is ten units below the range, and the
output is positive. -/
theorem lowpass_overflows :
    exactSum (fun _ => 0x80000000) lowpass 4 0 3 = -2 ^ 31 - 10 ∧
      ¬ Fits 32 (exactSum (fun _ => 0x80000000) lowpass 4 0 3) ∧
      (fir (fun _ => 0x80000000) lowpass (fun _ => 0) 4 4 0).toInt = 2 ^ 31 - 10 := by
  refine ⟨by decide, ?_, by decide⟩
  rw [exactSum_last_fits_iff]
  decide

end RiscvLab.Fir
