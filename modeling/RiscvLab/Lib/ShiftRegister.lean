import Mathlib

/-!
# Shift registers with linear feedback

A register over the field of two elements shifts its cells by one place and fills the last one
with the sum of the tapped cells. Its shift is a linear map, and the powers of that map are the
polynomials modulo the register's characteristic polynomial. These are computed on numbers
whose bits are the coefficients, which shows when every state but zero has the greatest
possible period.
-/
namespace RiscvLab.Lib.ShiftRegister
open Function

section Recurrence

variable {R : Type*} [CommSemiring R] (E : LinearRecurrence R)

/-- After `n` shifts the register shows its sequence from the `n`-th term on. -/
theorem tupleSucc_pow_apply (cells : Fin E.order → R) (n : Nat) (i : Fin E.order) :
    (E.tupleSucc ^ n) cells i = E.mkSol cells (n + i) := by
  induction n generalizing i with
  | zero =>
    rw [Nat.zero_add]
    exact (E.mkSol_eq_init cells i).symm
  | succ n ih =>
    rw [pow_succ', Module.End.mul_apply]
    change (if h : (i : Nat) + 1 < E.order then (E.tupleSucc ^ n) cells ⟨i + 1, h⟩
      else ∑ j, E.coeffs j * (E.tupleSucc ^ n) cells j) = _
    split
    next inside =>
      rw [ih, Nat.add_assoc, Nat.add_comm 1]
    next last =>
      have whole : n + 1 + (i : Nat) = n + E.order := by
        have bound := i.isLt
        omega
      rw [whole, E.is_sol_mkSol cells n]
      exact Finset.sum_congr rfl fun j _ => by rw [ih]

/-- The shift satisfies the recurrence of the register. -/
theorem tupleSucc_pow_order :
    E.tupleSucc ^ E.order = ∑ i : Fin E.order, E.coeffs i • E.tupleSucc ^ (i : Nat) := by
  refine LinearMap.ext fun cells => funext fun k => ?_
  rw [tupleSucc_pow_apply, Nat.add_comm, E.is_sol_mkSol cells k, LinearMap.sum_apply,
    Finset.sum_apply]
  refine Finset.sum_congr rfl fun i _ => ?_
  rw [LinearMap.smul_apply, Pi.smul_apply, smul_eq_mul, tupleSucc_pow_apply, Nat.add_comm]

end Recurrence

section Packed

/-- A coefficient of a polynomial whose coefficients are the bits of a number. -/
def bit (a i : Nat) : ZMod 2 := if a.testBit i then 1 else 0

/-- Times the variable, modulo the polynomial of degree `n` whose lower coefficients are
`taps`. -/
def times (n taps a : Nat) : Nat := (2 * a % 2 ^ n) ^^^ (if a.testBit (n - 1) then taps else 0)

/-- The product with the lowest `rounds` coefficients of `b`. -/
def product (n taps : Nat) : (rounds a b : Nat) → Nat
  | 0, _, _ => 0
  | rounds + 1, a, b =>
    (if b.testBit 0 then a else 0) ^^^ product n taps rounds (times n taps a) (b / 2)

/-- A power, for exponents of `rounds` bits. -/
def power (n taps : Nat) : (rounds a e : Nat) → Nat
  | 0, _, _ => 1
  | rounds + 1, a, e =>
    let rest := power n taps rounds (product n taps n a a) (e / 2)
    if e.testBit 0 then product n taps n rest a else rest

theorem bit_xor (a b i : Nat) : bit (a ^^^ b) i = bit a i + bit b i := by
  unfold bit
  rw [Nat.testBit_xor]
  cases a.testBit i <;> cases b.testBit i <;> decide

theorem bit_succ (a i : Nat) : bit a (i + 1) = bit (a / 2) i := by
  unfold bit
  rw [Nat.testBit_add_one]

variable {A : Type*} [Ring A] [Algebra (ZMod 2) A]

/-- The value of a polynomial. -/
def evaluate (t : A) (n a : Nat) : A := ∑ i ∈ Finset.range n, bit a i • t ^ i

variable {t : A} {n taps : Nat}

theorem evaluate_zero (t : A) (n : Nat) : evaluate t n 0 = 0 :=
  Finset.sum_eq_zero fun i _ => by rw [bit, Nat.zero_testBit]; exact zero_smul _ _

theorem evaluate_xor (t : A) (n a b : Nat) :
    evaluate t n (a ^^^ b) = evaluate t n a + evaluate t n b := by
  unfold evaluate
  rw [← Finset.sum_add_distrib]
  exact Finset.sum_congr rfl fun i _ => by rw [bit_xor, add_smul]

theorem evaluate_succ (t : A) (n a : Nat) :
    evaluate t (n + 1) a = bit a 0 • 1 + t * evaluate t n (a / 2) := by
  unfold evaluate
  rw [Finset.sum_range_succ', pow_zero, add_comm, Finset.mul_sum]
  refine congrArg _ (Finset.sum_congr rfl fun i _ => ?_)
  rw [bit_succ, pow_succ', mul_smul_comm]

theorem evaluate_one (t : A) (n : Nat) : evaluate t (n + 1) 1 = 1 := by
  have half : 1 / 2 = 0 := rfl
  rw [evaluate_succ, half, evaluate_zero, mul_zero, add_zero]
  exact one_smul _ _

theorem evaluate_two (t : A) (n : Nat) : evaluate t (n + 2) 2 = t := by
  have half : 2 / 2 = 1 := rfl
  rw [evaluate_succ, half, evaluate_one, mul_one]
  exact (congrArg (· + t) (zero_smul _ _)).trans (zero_add t)

theorem evaluate_if (t : A) (n : Nat) (a b i : Nat) :
    evaluate t n (if b.testBit i then a else 0) = bit b i • evaluate t n a := by
  unfold bit
  split
  next => exact (one_smul _ _).symm
  next => exact (evaluate_zero t n).trans (zero_smul _ _).symm

theorem commute_evaluate (t : A) (n a : Nat) : Commute t (evaluate t n a) :=
  Commute.sum_right _ _ _ fun i _ => ((Commute.refl t).pow_right i).smul_right _

theorem evaluate_mul_comm (t : A) (n a b : Nat) :
    evaluate t n a * evaluate t n b = evaluate t n b * evaluate t n a := by
  refine (Commute.sum_right _ _ _ fun i _ => Commute.smul_right ?_ _).eq
  exact ((commute_evaluate t n a).pow_left i).symm

/-- The powers of `t` from the `n`-th on are reduced to the lower ones. -/
theorem evaluate_times (reduces : t ^ (n + 1) = evaluate t (n + 1) taps) (a : Nat) :
    evaluate t (n + 1) (times (n + 1) taps a) = t * evaluate t (n + 1) a := by
  have doubled : evaluate t (n + 1) (2 * a % 2 ^ (n + 1)) = t * evaluate t n a := by
    have low : bit (2 * a % 2 ^ (n + 1)) 0 = 0 := by
      unfold bit
      rw [Nat.testBit_mod_two_pow, Nat.testBit_zero, Nat.mul_mod_right]
      rfl
    have rest : 2 * a % 2 ^ (n + 1) / 2 = a % 2 ^ n := by
      rw [pow_succ', Nat.mul_mod_mul_left]
      exact Nat.mul_div_cancel_left _ (by decide)
    rw [evaluate_succ, low, rest, zero_smul, zero_add]
    refine congrArg _ (Finset.sum_congr rfl fun i inside => ?_)
    rw [bit, Nat.testBit_mod_two_pow, decide_eq_true (Finset.mem_range.mp inside), Bool.true_and,
      bit]
  have top : evaluate t (n + 1) a = evaluate t n a + bit a n • t ^ n :=
    Finset.sum_range_succ _ _
  rw [times, Nat.add_sub_cancel, evaluate_xor, doubled, evaluate_if, ← reduces, top, mul_add,
    mul_smul_comm, pow_succ']

theorem evaluate_product (reduces : t ^ (n + 1) = evaluate t (n + 1) taps) (rounds a b : Nat) :
    evaluate t (n + 1) (product (n + 1) taps rounds a b) =
      evaluate t (n + 1) a * evaluate t rounds b := by
  induction rounds generalizing a b with
  | zero =>
    rw [product, evaluate_zero]
    exact (mul_zero _).symm
  | succ rounds ih =>
    have moved := (commute_evaluate t (n + 1) a).eq
    rw [product, evaluate_xor, evaluate_if, ih, evaluate_times reduces, moved, mul_assoc,
      evaluate_succ t rounds, mul_add, mul_smul_comm, mul_one]

theorem evaluate_power (reduces : t ^ (n + 1) = evaluate t (n + 1) taps) {rounds : Nat}
    (a : Nat) {e : Nat} (fits : e < 2 ^ rounds) :
    evaluate t (n + 1) (power (n + 1) taps rounds a e) = evaluate t (n + 1) a ^ e := by
  induction rounds generalizing a e with
  | zero =>
    obtain rfl : e = 0 := Nat.lt_one_iff.mp fits
    exact (evaluate_one t n).trans (pow_zero _).symm
  | succ rounds ih =>
    have half : e / 2 < 2 ^ rounds := by
      rw [pow_succ] at fits
      omega
    have rest : evaluate t (n + 1) (power (n + 1) taps rounds (product (n + 1) taps (n + 1) a a)
        (e / 2)) = evaluate t (n + 1) a ^ (2 * (e / 2)) := by
      rw [ih _ half, evaluate_product reduces, ← pow_two, ← pow_mul]
    unfold power
    dsimp only
    rw [Nat.testBit_zero]
    split
    next odd =>
      have whole : e = 2 * (e / 2) + 1 := by
        have := of_decide_eq_true odd
        omega
      rw [evaluate_product reduces, rest, ← pow_succ, ← whole]
    next even =>
      have whole : e = 2 * (e / 2) := by
        have := of_decide_eq_false (Bool.eq_false_iff.mpr even)
        omega
      rw [rest, ← whole]

end Packed

section Period

/-- A number of steps that leads back to a point is its period, if no step count that is
smaller by a prime factor does. -/
theorem minimalPeriod_of_prime_factors {α : Type*} {f : α → α} {x : α} {n : Nat}
    (back : f^[n] x = x)
    (earlier : ∀ p, p.Prime → p ∣ n → f^[n / p] x ≠ x) : minimalPeriod f x = n := by
  obtain ⟨c, whole⟩ := IsPeriodicPt.minimalPeriod_dvd back
  by_contra different
  have more : c ≠ 1 := fun one => different (by rw [whole, one, mul_one])
  obtain ⟨p, prime, b, rfl⟩ := Nat.exists_prime_and_dvd more
  have divides : p ∣ n := ⟨minimalPeriod f x * b, by rw [whole, Nat.mul_left_comm]⟩
  have fraction : n / p = minimalPeriod f x * b := by
    rw [whole, Nat.mul_left_comm, Nat.mul_div_cancel_left _ prime.pos]
  refine earlier p prime divides ?_
  rw [fraction]
  exact (isPeriodicPt_minimalPeriod f x).mul_const b

/-- The shift has the period `2 ^ n - 1`. For each prime factor of that number an inverse shows
that one shift less by this factor changes every state but zero. -/
structure FullPeriod (n taps : Nat) (factors : List (Nat × Nat)) : Prop where
  back : power n taps n 2 (2 ^ n - 1) = 1
  inverse : ∀ f ∈ factors,
    product n taps n (power n taps n 2 ((2 ^ n - 1) / f.1) ^^^ 1) f.2 = 1
  complete : ∀ p, p.Prime → p ∣ 2 ^ n - 1 → ∃ f ∈ factors, f.1 = p

variable {V : Type*} [AddCommGroup V] [Module (ZMod 2) V]

/-- Every state but zero has the full period. -/
theorem minimalPeriod_of_fullPeriod {T : Module.End (ZMod 2) V} {n taps : Nat}
    {factors : List (Nat × Nat)} (reduces : T ^ (n + 2) = evaluate T (n + 2) taps)
    (full : FullPeriod (n + 2) taps factors) {v : V} (state : v ≠ 0) :
    minimalPeriod T v = 2 ^ (n + 2) - 1 := by
  have some_steps : 1 < 2 ^ (n + 2) := Nat.one_lt_two_pow (by omega)
  have iterate : ∀ k < 2 ^ (n + 2), T^[k] v =
      evaluate T (n + 2) (power (n + 2) taps (n + 2) 2 k) v := by
    intro k fits
    rw [evaluate_power reduces 2 fits, evaluate_two, Module.End.pow_apply]
  refine minimalPeriod_of_prime_factors ?_ fun p prime divides same => ?_
  · rw [iterate _ (by omega), full.back, evaluate_one]
    rfl
  · obtain ⟨⟨p', inverse⟩, listed, here⟩ := full.complete p prime divides
    obtain rfl : p' = p := here
    have smaller := Nat.div_le_self (2 ^ (n + 2) - 1) p'
    have unit := congrArg (evaluate T (n + 2)) (full.inverse _ listed)
    rw [evaluate_product reduces, evaluate_mul_comm, evaluate_xor, evaluate_one] at unit
    refine state ?_
    calc v = (evaluate T (n + 2) inverse * (evaluate T (n + 2) (power (n + 2) taps (n + 2) 2
          ((2 ^ (n + 2) - 1) / p')) + 1)) v := by rw [unit]; rfl
      _ = evaluate T (n + 2) inverse (T^[(2 ^ (n + 2) - 1) / p'] v + v) := by
        rw [iterate _ (by omega)]
        rfl
      _ = 0 := by rw [same, ZModModule.add_self, map_zero]

section Orbit

variable {α : Type*} {f : α → α} {x y : α} {n : Nat}

/-- A point whose period is the number of points in a set that its steps keep to comes to all
of them. -/
theorem exists_iterate (S : α → Prop) (code : α → Nat) (start : S x)
    (kept : ∀ y, S y → S (f y)) (below : ∀ y, S y → code y < n)
    (injective : ∀ y z, S y → S z → code y = code z → y = z) (period : minimalPeriod f x = n)
    (point : S y) : ∃ k < n, f^[k] x = y := by
  have inside : ∀ k, S (f^[k] x) := by
    intro k
    induction k with
    | zero => exact start
    | succ k ih =>
      rw [iterate_succ_apply']
      exact kept _ ih
  let steps : Fin n → Fin n := fun k => ⟨code (f^[k] x), below _ (inside k)⟩
  have different : Injective steps := by
    intro j k same
    have equal := injective _ _ (inside j) (inside k) (congrArg Fin.val same)
    refine Fin.ext (iterate_injOn_Iio_minimalPeriod ?_ ?_ equal)
    · exact Set.mem_Iio.mpr (period ▸ j.isLt)
    · exact Set.mem_Iio.mpr (period ▸ k.isLt)
  obtain ⟨k, reached⟩ := Finite.injective_iff_surjective.mp different ⟨code y, below y point⟩
  exact ⟨k, k.isLt, injective _ _ (inside k) point (congrArg Fin.val reached)⟩

end Orbit

section Register

/-- The register with `n` cells that is tapped at the bits of a number. -/
def register (n taps : Nat) : LinearRecurrence (ZMod 2) := ⟨n, fun i => bit taps i⟩

def shift (n taps : Nat) : Module.End (ZMod 2) (Fin n → ZMod 2) := (register n taps).tupleSucc

variable {n taps : Nat}

theorem shift_apply (cells : Fin n → ZMod 2) (i : Fin n) : shift n taps cells i =
    if h : (i : Nat) + 1 < n then cells ⟨i + 1, h⟩ else ∑ j : Fin n, bit taps j * cells j := rfl

theorem minimalPeriod_shift {factors : List (Nat × Nat)}
    (full : FullPeriod (n + 2) taps factors) {cells : Fin (n + 2) → ZMod 2}
    (state : cells ≠ 0) : minimalPeriod (shift (n + 2) taps) cells = 2 ^ (n + 2) - 1 := by
  refine minimalPeriod_of_fullPeriod ?_ full state
  exact (tupleSucc_pow_order (register (n + 2) taps)).trans
    (Finset.sum_range fun i => bit taps i • shift (n + 2) taps ^ i).symm

end Register

end Period

end RiscvLab.Lib.ShiftRegister
