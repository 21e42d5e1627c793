import Mathlib.Data.BitVec

/-!
# Comparison by subtraction

Adding the complement of `b` and one to `a`, one bit wider than the operands,
gives the difference, and from its carry and overflow the unsigned and the
signed order.
-/
namespace RiscvLab.Lib.Subtraction

variable {w : Nat} (a b : BitVec w)

/-- The sum that an adder with inverted operand and carry-in forms. -/
def wideSub : BitVec (w + 1) := a.setWidth (w + 1) + (~~~b).setWidth (w + 1) + 1#(w + 1)

theorem toNat_wideSub : (wideSub a b).toNat = a.toNat + 2 ^ w - b.toNat := by
  have ha := a.isLt
  have hb := b.isLt
  have pow : 2 ^ (w + 1) = 2 * 2 ^ w := by rw [Nat.pow_succ]; omega
  have one : 0 < 2 ^ w := Nat.two_pow_pos w
  rw [wideSub, BitVec.toNat_add, BitVec.toNat_add, BitVec.toNat_setWidth, BitVec.toNat_setWidth,
    BitVec.toNat_not, pow]
  rw [Nat.mod_eq_of_lt (show a.toNat < 2 * 2 ^ w by omega),
    Nat.mod_eq_of_lt (show 2 ^ w - 1 - b.toNat < 2 * 2 ^ w by omega)]
  rw [Nat.mod_eq_of_lt (show a.toNat + (2 ^ w - 1 - b.toNat) < 2 * 2 ^ w by omega)]
  rw [BitVec.toNat_ofNat, pow, Nat.mod_eq_of_lt (show 1 < 2 * 2 ^ w by omega),
    Nat.mod_eq_of_lt (by omega)]
  omega

theorem setWidth_wideSub : (wideSub a b).setWidth w = a - b := by
  apply BitVec.eq_of_toNat_eq
  have hb := b.isLt
  rw [BitVec.toNat_setWidth, toNat_wideSub, BitVec.toNat_sub]
  congr 1
  omega

/-- The carry out says that there was no borrow. -/
theorem carry_wideSub : (wideSub a b).getLsbD w = !a.ult b := by
  have ha := a.isLt
  have hb := b.isLt
  rw [BitVec.getLsbD, Nat.testBit_eq_decide_div_mod_eq, toNat_wideSub, BitVec.ult]
  by_cases below : a.toNat < b.toNat
  · rw [Nat.div_eq_of_lt (by omega)]
    simp [below]
  · rw [show a.toNat + 2 ^ w - b.toNat = 2 ^ w + (a.toNat - b.toNat) by omega,
      Nat.add_div_left _ (Nat.two_pow_pos w),
      Nat.div_eq_of_lt (show a.toNat - b.toNat < 2 ^ w by omega)]
    simp [below]

/-- Between operands of one sign the sign of the difference is the unsigned order. -/
theorem msb_sub_of_msb_eq (h : a.msb = b.msb) : (a - b).msb = a.ult b := by
  have ha := a.isLt
  have hb := b.isLt
  cases w with
  | zero => simp [BitVec.of_length_zero, BitVec.ult]
  | succ w =>
    have pow : 2 ^ (w + 1) = 2 * 2 ^ w := by rw [Nat.pow_succ]; omega
    simp only [BitVec.msb_eq_decide, BitVec.ult, BitVec.toNat_sub, Nat.add_sub_cancel, pow,
      decide_eq_decide] at *
    rcases Nat.lt_or_ge a.toNat b.toNat with lt | ge
    · rw [Nat.mod_eq_of_lt (by omega)]
      omega
    · rw [show 2 * 2 ^ w - b.toNat + a.toNat = 2 * 2 ^ w + (a.toNat - b.toNat) by omega,
        Nat.add_mod_left, Nat.mod_eq_of_lt (by omega)]
      omega

/-- Sign of the difference, corrected by the overflow flag, is the signed order. -/
theorem slt_eq_msb_xor_overflow :
    ((a - b).msb ^^ ((a.msb ^^ b.msb) && (a.msb ^^ (a - b).msb))) = a.slt b := by
  rw [BitVec.slt_eq_ult]
  by_cases same : a.msb = b.msb
  · rw [msb_sub_of_msb_eq a b same, same]
    simp
  · have ordered : a.ult b = !a.msb := by
      have ha := a.isLt
      have hb := b.isLt
      simp only [BitVec.msb_eq_decide, BitVec.ult, decide_eq_decide] at *
      by_cases high : 2 ^ (w - 1) ≤ a.toNat
      · simp only [high, decide_true, Bool.not_true, decide_eq_false_iff_not]
        omega
      · simp only [high, decide_false, Bool.not_false, decide_eq_true_eq]
        omega
    rw [ordered]
    revert same
    cases a.msb <;> cases b.msb <;> cases (a - b).msb <;> decide

end RiscvLab.Lib.Subtraction
