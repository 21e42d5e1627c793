import RiscvLab.Fir.Reference
import RiscvLab.Lib.FixedPoint

/-!
# Accuracy of the C filter

If the coefficients add up to less than one in absolute value, nothing in `fir` is cut
off and nothing overflows, so each output is the exact one with every product rounded
down.
-/
namespace RiscvLab.Fir
open RiscvLab.Lib.ByteMemory RiscvLab.Lib.FixedPoint

section Operations

variable (a b : Word)

/-- The `long` that is assigned to `result`. -/
theorem toInt_shifted :
    ((longProduct a b).sshiftRight 31).toInt = a.toInt * b.toInt / 2 ^ 31 := by
  have product : (longProduct a b).toInt = a.toInt * b.toInt :=
    toInt_mul_signExtend (by decide) a b
  rw [BitVec.toInt_sshiftRight, product, Int.shiftRight_eq_div_pow]
  rfl

theorem mulQ31_exact_iff :
    (mulQ31 a b).toInt = ((longProduct a b).sshiftRight 31).toInt ↔
      Fits 32 (a.toInt * b.toInt / 2 ^ 31) := by
  rw [mulQ31, toInt_setWidth_iff (by decide) (by decide), toInt_shifted]

theorem addQ31_exact_iff : (addQ31 a b).toInt = a.toInt + b.toInt ↔ Fits 32 (a.toInt + b.toInt) :=
  toInt_add_iff (by decide) a b

theorem word_bounds : -2 ^ 31 ≤ a.toInt ∧ a.toInt ≤ 2 ^ 31 :=
  ⟨BitVec.le_toInt a, (BitVec.toInt_lt (x := a)).le⟩

theorem fits_of_abs_le {value bound : Int} (small : |value| ≤ bound) (room : bound ≤ 2 ^ 31 - 1) :
    Fits 32 value := by
  obtain ⟨low, high⟩ := abs_le.mp small
  unfold Fits
  constructor <;> omega

end Operations

section Sums

variable {x c : Int → Word} {m : Int} {k : Nat}

/-- The exact product of an iteration, in units of 2^-62. -/
def term (x c : Int → Word) (m : Int) (j i : Nat) : Int :=
  (c i).toInt * (x (j - i + (m - 1))).toInt

/-- The coefficients up to the `k`-th are less than one together. -/
def Bounded (c : Int → Word) (k : Nat) : Prop :=
  ∑ i ∈ Finset.range k, |(c i).toInt| ≤ 2 ^ 31 - 1

theorem Bounded.mono (h : Bounded c k) {i : Nat} (before : i ≤ k) : Bounded c i := by
  refine le_trans (Finset.sum_le_sum_of_subset_of_nonneg ?_ fun _ _ _ => abs_nonneg _) h
  exact Finset.range_subset_range.mpr before

theorem Bounded.coefficient (h : Bounded c k) {i : Nat} (before : i < k) :
    |(c i).toInt| ≤ 2 ^ 31 - 1 := by
  refine le_trans ?_ h
  exact Finset.single_le_sum (f := fun i : Nat => |(c i).toInt|) (fun _ _ => abs_nonneg _)
    (Finset.mem_range.mpr before)

/-- A product with such a coefficient is not cut off. -/
theorem mulQ31_exact (h : Bounded c k) {i : Nat} (before : i < k) (b : Word) :
    (mulQ31 (c i) b).toInt = ((longProduct (c i) b).sshiftRight 31).toInt := by
  rw [mulQ31_exact_iff]
  have small := abs_mul_ediv_le (by decide : (0 : Int) < 2 ^ 31) (c := (c i).toInt)
    (word_bounds b).1 (word_bounds b).2
  exact fits_of_abs_le small (h.coefficient before)

/-- The sum of rounded products fits at every step. -/
theorem fits_sum (h : Bounded c k) (m : Int) (j : Nat) :
    Fits 32 (∑ i ∈ Finset.range k, term x c m j i / 2 ^ 31) := by
  have small := abs_sum_mul_ediv_le (fun i : Nat => (c i).toInt)
    (fun i : Nat => (x (j - i + (m - 1))).toInt) (by decide : (0 : Int) < 2 ^ 31)
    (fun i => word_bounds _) k
  exact fits_of_abs_le small h

theorem partialSum_toInt (h : Bounded c k) (j : Nat) :
    (partialSum x c m j k).toInt = ∑ i ∈ Finset.range k, term x c m j i / 2 ^ 31 := by
  induction k with
  | zero => rfl
  | succ k ih =>
    have before := ih (h.mono (Nat.le_succ k))
    have product := (mulQ31_exact h (Nat.lt_succ_self k) (x (j - k + (m - 1)))).trans
      (toInt_shifted _ _)
    have fits := fits_sum (x := x) h m j
    rw [Finset.sum_range_succ] at fits ⊢
    rw [partialSum, (addQ31_exact_iff _ _).mpr, before, product]
    · rfl
    · rw [before, product]
      exact fits

end Sums

/-- For coefficients that are together less than one: no product is changed by the
assignment to `int`, no sum overflows at any step, and each output is below the exact one
by less than one unit for each coefficient. -/
theorem fir_accuracy (x c y : Int → Word) {n m : Int} (some : 1 ≤ m)
    (bounded : ∑ i ∈ Finset.range m.toNat, |(c i).toInt| ≤ 2 ^ 31 - 1) (j : Nat)
    (inside : (j : Int) ≤ n - m) :
    (∀ i : Nat, (i : Int) < m →
      (mulQ31 (c i) (x (j - i + (m - 1)))).toInt =
          ((longProduct (c i) (x (j - i + (m - 1)))).sshiftRight 31).toInt ∧
        (addQ31 (partialSum x c m j i) (mulQ31 (c i) (x (j - i + (m - 1))))).toInt =
          (partialSum x c m j i).toInt + (mulQ31 (c i) (x (j - i + (m - 1)))).toInt) ∧
    0 ≤ ((∑ i ∈ Finset.range m.toNat, (c i).toInt * (x (j + m - 1 - i)).toInt : Int) : Rat) / 2 ^ 31 -
        (fir x c y n m j).toInt ∧
    ((∑ i ∈ Finset.range m.toNat, (c i).toInt * (x (j + m - 1 - i)).toInt : Int) : Rat) / 2 ^ 31 -
        (fir x c y n m j).toInt < m := by
  have small : Bounded c m.toNat := bounded
  refine ⟨fun i before => ?_, ?_⟩
  · have index : i < m.toNat := by omega
    have product := mulQ31_exact small index (x (j - i + (m - 1)))
    refine ⟨product, ?_⟩
    -- the sum up to and with this product is itself a partial sum
    have next := partialSum_toInt (x := x) (m := m) (small.mono (Nat.succ_le_of_lt index)) j
    have here := partialSum_toInt (x := x) (m := m) (small.mono index.le) j
    rw [Finset.sum_range_succ, ← here, term, ← toInt_shifted, ← product] at next
    exact next
  · have value : fir x c y n m j = partialSum x c m j m.toNat := by
      rw [fir_apply, if_pos ⟨Int.natCast_nonneg j, inside⟩, Int.toNat_natCast]
    have same : ∀ i : Nat, (c i).toInt * (x (j + m - 1 - i)).toInt = term x c m j i := by
      intro i
      have index : (j : Int) + m - 1 - i = j - i + (m - 1) := by ring
      rw [index, term]
    have error := rat_sum_ediv_error (fun i => term x c m j i) (by decide : (0 : Int) < 2 ^ 31)
      (by omega : 0 < m.toNat)
    have count : ((m.toNat : Nat) : Rat) = m := by
      have cast : ((m.toNat : Nat) : Int) = m := Int.toNat_of_nonneg (by omega)
      exact_mod_cast congrArg (fun k : Int => (k : Rat)) cast
    rw [value, partialSum_toInt small j, Finset.sum_congr rfl (fun i _ => same i), ← count]
    exact_mod_cast error

/-- Two coefficients that add up to the largest `int`. -/
def halves (i : Int) : Word := if i = 0 then 0x40000000 else 0x3FFFFFFF

/-- With samples of -1 the first sum already is close to the end of the range. -/
theorem fir_accuracy_lowest :
    (mulQ31 (halves 0) 0x80000000).toInt =
      ((longProduct (halves 0) 0x80000000).sshiftRight 31).toInt ∧
    0 ≤ ((∑ i ∈ Finset.range 2, (halves i).toInt * (0x80000000 : Word).toInt : Int) : Rat) / 2 ^ 31 -
      (fir (fun _ => 0x80000000) halves (fun _ => 0) 3 2 1).toInt := by
  have bounded : ∑ i ∈ Finset.range (2 : Int).toNat, |(halves i).toInt| ≤ 2 ^ 31 - 1 := by
    decide +kernel
  have accuracy := fir_accuracy (fun _ => 0x80000000) halves (fun _ => 0) (n := 3) (m := 2)
    (by decide) bounded 1 (by decide)
  exact ⟨(accuracy.1 0 (by decide)).1, accuracy.2.1⟩

end RiscvLab.Fir
