import RiscvLab.Lib.Subtraction
import RiscvLab.Hdl.Blocks

/-!
# The shared adder of the ALUs

Both cores derive `slt` and all branch decisions from one adder and its flags.
-/
namespace RiscvLab.Hdl
open RiscvLab.Lib.ByteMemory RiscvLab.Lib.Subtraction

/-- The shifters take their amount from the lower five bits. -/
theorem shift_amount (b : Word) : (b.extractLsb' 0 5).toNat = b.toNat % 32 := by
  simp [BitVec.extractLsb'_toNat]

variable (a b : Word) {c : BitVec 4}

theorem aluSum_sub (inverted : c.getLsbD 0 = true) : aluSum a b c = wideSub a b := by
  rw [aluSum, condinvb, inverted, if_pos rfl]
  rfl

theorem result_add (plain : c.getLsbD 0 = false) : (aluSum a b c).setWidth 32 = a + b := by
  apply BitVec.eq_of_toNat_eq
  rw [aluSum, condinvb, plain]
  simp

theorem result_sub (inverted : c.getLsbD 0 = true) : (aluSum a b c).setWidth 32 = a - b := by
  rw [aluSum_sub a b inverted, setWidth_wideSub]

theorem sign_sub (inverted : c.getLsbD 0 = true) :
    (aluSum a b c).getLsbD 31 = (a - b).msb := by
  rw [← result_sub a b inverted, BitVec.msb_eq_getLsbD_last, BitVec.getLsbD_setWidth]
  simp

/-- Sign xor overflow of the subtraction is the signed order. -/
theorem sign_xor_overflow (inverted : c.getLsbD 0 = true) (addSub : isAddSub c = true) :
    ((aluSum a b c).getLsbD 31 ^^ overflow a b c) = a.slt b := by
  have order := slt_eq_msb_xor_overflow a b
  rw [overflow, inverted, addSub, sign_sub a b inverted, ← order,
    BitVec.msb_eq_getLsbD_last (x := a), BitVec.msb_eq_getLsbD_last (x := b)]
  simp

section Flags

variable {a b}

theorem flag_zero : (aluOut a b c (a - b)).zero = (a == b) := by
  simp only [aluOut]
  rw [Bool.eq_iff_iff, beq_iff_eq, beq_iff_eq, BitVec.sub_eq_iff_eq_add]
  simp

theorem flag_less (inverted : c.getLsbD 0 = true) (addSub : isAddSub c = true) :
    ((aluOut a b c (a - b)).negative ^^ (aluOut a b c (a - b)).v) = a.slt b := by
  rw [← sign_xor_overflow a b inverted addSub, sign_sub a b inverted,
    BitVec.msb_eq_getLsbD_last]
  rfl

theorem flag_carry (inverted : c.getLsbD 0 = true) (arithmetic : c.getLsbD 1 = false) :
    (aluOut a b c (a - b)).carry = !a.ult b := by
  simp only [aluOut, arithmetic, Bool.not_false, Bool.true_and]
  rw [aluSum_sub a b inverted]
  exact carry_wideSub a b

end Flags

end RiscvLab.Hdl
