import Mathlib.Logic.Function.Basic
import RiscvLab.Lib.ByteMemory

/-!
# The C filter

`fir` of lab1/lab1_/fir1/fir1.c with its two Q1.31 operations. An `int` is a 32-bit word
whose sums wrap, a `long` has 64 bits. Arrays are indexed by the C expressions as they
stand.
-/
namespace RiscvLab.Fir
open RiscvLab.Lib.ByteMemory

/-- `add_q31` -/
def addQ31 (a b : Word) : Word := a + b

/-- `res` of `mul_q31`. -/
def longProduct (a b : Word) : BitVec 64 := a.signExtend 64 * b.signExtend 64

/-- `mul_q31`: the assignment to `result` drops the upper half. -/
def mulQ31 (a b : Word) : Word := ((longProduct a b).sshiftRight 31).setWidth 32

section Loops

variable (x c : Int → Word) (m : Int)

/-- `y` after `i` iterations of the inner loop. -/
def innerLoop (j : Nat) (y : Int → Word) : Nat → (Int → Word)
  | 0 => Function.update y j 0
  | i + 1 =>
    let y' := innerLoop j y i
    Function.update y' j (addQ31 (y' j) (mulQ31 (c i) (x (j - i + (m - 1)))))

/-- `y` after `j` iterations of the outer loop. -/
def outerLoop (y : Int → Word) : Nat → (Int → Word)
  | 0 => y
  | j + 1 => innerLoop x c m j (outerLoop y j) m.toNat

/-- `y` after the call. -/
def fir (x c y : Int → Word) (n m : Int) : Int → Word := outerLoop x c m y (n - m + 1).toNat

/-- `y[j]` after `i` iterations of the inner loop. -/
def partialSum (j : Nat) : Nat → Word
  | 0 => 0
  | i + 1 => addQ31 (partialSum j i) (mulQ31 (c i) (x (j - i + (m - 1))))

theorem innerLoop_eq (j : Nat) (y : Int → Word) (i : Nat) :
    innerLoop x c m j y i = Function.update y j (partialSum x c m j i) := by
  induction i with
  | zero => rfl
  | succ i ih =>
    rw [innerLoop, ih]
    simp only [Function.update_self, Function.update_idem]
    rfl

theorem outerLoop_apply (y : Int → Word) (k : Nat) (j : Int) :
    outerLoop x c m y k j =
      if 0 ≤ j ∧ j < k then partialSum x c m j.toNat m.toNat else y j := by
  induction k with
  | zero =>
    have none : ¬ (0 ≤ j ∧ j < (0 : Nat)) := by omega
    rw [outerLoop, if_neg none]
  | succ k ih =>
    rw [outerLoop, innerLoop_eq]
    by_cases last : j = k
    · subst last
      have inside : (0 : Int) ≤ k ∧ (k : Int) < (k + 1 : Nat) := by omega
      rw [Function.update_self, if_pos inside, Int.toNat_natCast]
    · have same : (0 ≤ j ∧ j < (k + 1 : Nat)) ↔ (0 ≤ j ∧ j < k) := by omega
      rw [Function.update_of_ne last, ih, if_congr same rfl rfl]

/-- `fir` writes `y[0]` to `y[n-m]` and nothing else. -/
theorem fir_apply (y : Int → Word) (n : Int) (j : Int) : fir x c y n m j =
    if 0 ≤ j ∧ j ≤ n - m then partialSum x c m j.toNat m.toNat else y j := by
  have same : (0 ≤ j ∧ j < ((n - m + 1).toNat : Int)) ↔ (0 ≤ j ∧ j ≤ n - m) := by omega
  rw [fir, outerLoop_apply, if_congr same rfl rfl]

/-- An output depends on the `m` coefficients and the `n` samples only. -/
theorem partialSum_congr {x' c' : Int → Word} {n j k : Nat}
    (samples : ∀ i < n, x i = x' i) (coefficients : ∀ i < k, c i = c' i)
    (inside : (j : Int) + m ≤ n) (below : (k : Int) ≤ m) :
    partialSum x c m j k = partialSum x' c' m j k := by
  induction k with
  | zero => rfl
  | succ k ih =>
    have index : (((j : Int) - k + (m - 1)).toNat : Int) = j - k + (m - 1) :=
      Int.toNat_of_nonneg (by omega)
    have sample := samples ((j : Int) - k + (m - 1)).toNat (by omega)
    rw [index] at sample
    rw [partialSum, partialSum, sample, coefficients k (Nat.lt_succ_self k),
      ih (fun i below => coefficients i (by omega)) (by omega)]

end Loops

end RiscvLab.Fir
