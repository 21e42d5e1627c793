import RiscvLab.Runtime.Printf

/-!
# The verdict of a program

`verify` of lab1/common/util.h compares what a program has computed with what is expected, two
elements at a time. What it returns goes through `exit` to `tohost`.
-/
namespace RiscvLab.Runtime

section Verify

variable (n : Int) (test expected : Int → BitVec 32)

/-- The loop over `i`, with what follows it. -/
def verifyLoop : Nat → Int → Option Int
  | 0, _ => none
  | rounds + 1, i =>
    if i < n.tdiv 2 * 2 then
      if test i ≠ expected i then some (i + 1)
      else if test (i + 1) ≠ expected (i + 1) then some (i + 2)
      else verifyLoop rounds (i + 2)
    else if n.tmod 2 ≠ 0 ∧ test (n - 1) ≠ expected (n - 1) then some n
    else some 0

def verify : Option Int := verifyLoop n test expected (n.toNat + 1) 0

/-- Nothing differs, and the result is 0, or it is the number of the first element that does. -/
def Verdict (result : Int) : Prop :=
  (result = 0 ∧ ∀ i, 0 ≤ i → i < n → test i = expected i) ∨
    (0 < result ∧ result ≤ n ∧ test (result - 1) ≠ expected (result - 1) ∧
      ∀ i, 0 ≤ i → i < result - 1 → test i = expected i)

variable {n test expected}

theorem verifyLoop_verdict (positive : 0 ≤ n) {rounds : Nat} {i : Int} (even : i % 2 = 0)
    (start : 0 ≤ i) (within : i ≤ n) (enough : n < i + 2 * rounds)
    (same : ∀ j, 0 ≤ j → j < i → test j = expected j) :
    ∃ result, verifyLoop n test expected rounds i = some result ∧
      Verdict n test expected result := by
  have half : n.tdiv 2 = n / 2 := Int.tdiv_eq_ediv_of_nonneg positive
  have rest : n.tmod 2 = n % 2 := Int.tmod_eq_emod_of_nonneg positive
  induction rounds generalizing i with
  | zero => omega
  | succ rounds ih =>
    rw [verifyLoop, half, rest]
    split
    next pair =>
      by_cases first : test i = expected i
      · rw [if_neg (not_not.mpr first)]
        by_cases second : test (i + 1) = expected (i + 1)
        · rw [if_neg (not_not.mpr second)]
          refine ih (by omega) (by omega) (by omega) (by omega) fun j low below => ?_
          rcases Int.lt_trichotomy j i with before | rfl | behind
          · exact same j low before
          · exact first
          · obtain rfl : j = i + 1 := by omega
            exact second
        · rw [if_pos second]
          refine ⟨i + 2, rfl, .inr ⟨by omega, by omega, ?_, fun j low below => ?_⟩⟩
          · rwa [show i + 2 - 1 = i + 1 by omega]
          · rcases Int.lt_or_eq_of_le (show j ≤ i by omega) with before | rfl
            · exact same j low before
            · exact first
      · rw [if_pos first]
        refine ⟨i + 1, rfl, .inr ⟨by omega, by omega, ?_, fun j low below => ?_⟩⟩
        · rwa [Int.add_sub_cancel]
        · exact same j low (by omega)
    next done =>
      split
      next last =>
        obtain ⟨odd, differs⟩ := last
        exact ⟨n, rfl, .inr ⟨by omega, Int.le_refl n, differs, fun j low below =>
          same j low (by omega)⟩⟩
      next last =>
        refine ⟨0, rfl, .inl ⟨rfl, fun j low below => ?_⟩⟩
        by_cases before : j < i
        · exact same j low before
        · obtain rfl : j = n - 1 := by omega
          exact not_not.mp fun differs => last ⟨by omega, differs⟩

end Verify

section Exit

/-- What `tohost_exit` writes for the code that `exit` hands on. -/
def tohostExit (code : BitVec 32) : Word64 := code.signExtend 64 <<< 1 ||| 1

theorem toNat_tohostExit {code : BitVec 32} (positive : code.toNat < 2 ^ 31) :
    (tohostExit code).toNat = 2 * code.toNat + 1 := by
  have sign : code.msb = false := BitVec.msb_eq_false_iff_two_mul_lt.mpr (by omega)
  have shifted : (code.signExtend 64 <<< 1).toNat = code.toNat <<< 1 := by
    rw [BitVec.signExtend_eq_setWidth_of_msb_false sign, BitVec.toNat_shiftLeft,
      BitVec.toNat_setWidth, Nat.shiftLeft_eq, Nat.shiftLeft_eq]
    omega
  calc (tohostExit code).toNat
      = code.toNat <<< 1 ||| 1 := by
        rw [tohostExit, BitVec.toNat_or, shifted]
        rfl
    _ = code.toNat <<< 1 + 1 := (Nat.shiftLeft_add_eq_or_of_lt (by decide) _).symm
    _ = 2 * code.toNat + 1 := by
        rw [Nat.shiftLeft_eq]
        omega

variable {n : Int} {test expected : Int → BitVec 32}

/-- A `main` that returns the verdict of `verify` tells the host, in every case, which element
is the first to differ, or that none does. -/
theorem verify_reports (positive : 0 ≤ n) (fits : n < 2 ^ 31) :
    ∃ result, verify n test expected = some result ∧
      ((tohostExit (BitVec.ofInt 32 result)).toNat = 1 ↔
        ∀ i, 0 ≤ i → i < n → test i = expected i) ∧
      ∀ i : Nat, i < n → ((tohostExit (BitVec.ofInt 32 result)).toNat = 2 * (i + 1) + 1 ↔
        test i ≠ expected i ∧ ∀ j : Int, 0 ≤ j → j < i → test j = expected j) := by
  obtain ⟨result, run, verdict⟩ : ∃ result, verify n test expected = some result ∧
      Verdict n test expected result :=
    verifyLoop_verdict positive rfl (Int.le_refl 0) positive
      (show n < 0 + 2 * (n.toNat + 1 : Nat) by omega) fun j low below => absurd low (by omega)
  have value : 0 ≤ result → result ≤ n →
      (tohostExit (BitVec.ofInt 32 result)).toNat = 2 * result.toNat + 1 := by
    intro low high
    have code : (BitVec.ofInt 32 result).toNat = result.toNat := by
      rw [BitVec.toNat_ofInt, Int.emod_eq_of_lt low (by omega)]
    rw [toNat_tohostExit (by omega), code]
  refine ⟨result, run, ?_⟩
  rcases verdict with ⟨rfl, same⟩ | ⟨low, high, differs, before⟩
  · rw [value (Int.le_refl 0) positive]
    refine ⟨iff_of_true rfl same, fun i inside => iff_of_false (by omega) fun first => ?_⟩
    exact first.1 (same i (by omega) inside)
  · rw [value (by omega) high]
    refine ⟨iff_of_false (by omega) fun same => ?_, fun i inside => ⟨fun report => ?_, ?_⟩⟩
    · exact differs (same (result - 1) (by omega) (by omega))
    · obtain rfl : result = i + 1 := by omega
      rw [Int.add_sub_cancel] at differs before
      exact ⟨differs, before⟩
    · rintro ⟨here, none⟩
      rcases Int.lt_trichotomy (i : Int) (result - 1) with earlier | same | later
      · exact absurd (before i (by omega) earlier) here
      · omega
      · exact absurd (none (result - 1) (by omega) later) differs

/-- The second of three elements differs. -/
theorem verify_reports_second : ∃ result,
    verify 3 (fun i => if i = 1 then 7 else 0) (fun _ => 0) = some result ∧
      (tohostExit (BitVec.ofInt 32 result)).toNat = 5 := by
  let test : Int → BitVec 32 := fun i => if i = 1 then 7 else 0
  obtain ⟨result, run, -, first⟩ : ∃ result, verify 3 test (fun _ => 0) = some result ∧ _ ∧ _ :=
    verify_reports (by decide) (by decide)
  refine ⟨result, run, (first 1 (by decide)).mpr ⟨by decide, fun j low below => ?_⟩⟩
  exact if_neg (by omega)

end Exit

end RiscvLab.Runtime
