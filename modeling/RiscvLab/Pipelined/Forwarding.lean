import RiscvLab.Hdl.Registers
import RiscvLab.Pipelined.Core

/-!
# Forwarding

The operands that the forwarding multiplexers deliver are the registers as the
instructions in W and M will leave them, provided that no result is asked for
before M's ALU output is that result.
-/
namespace RiscvLab.Pipelined
open RiscvLab.Lib.ByteMemory RiscvLab.Hdl RiscvLab.Rv32i

namespace Core

variable {s : Core} {x : Undef} {readDataM : Word}

/-- M's ALU result is forwarded only if it is what M will write back. -/
def ForwardSafe (s : Core) : Prop :=
  s.controlregM.regWriteM = true → s.regM.rdM ≠ 0 →
    s.regE.rs1E = s.regM.rdM ∨ s.regE.rs2E = s.regM.rdM → s.controlregM.resultSrcM = 0

/-- The forwarding multiplexer selects what the drained register file holds. -/
theorem forwarded (x : Undef) (readDataM : Word) (r : Reg)
    (late : s.controlregM.regWriteM = true → s.regM.rdM ≠ 0 → r = s.regM.rdM →
      s.controlregM.resultSrcM = 0) :
    mux3 (regRead s.rf r) s.resultW s.regM.aluResultM
      (if r ≠ 0 then
        if (r == s.regM.rdM) && s.controlregM.regWriteM then 0b10
        else if (r == s.regW.rdW) && s.regWriteW then 0b01
        else 0b00
      else 0b00) = (Regs.ofArray (s.drainedRf x readDataM)).get r := by
  by_cases zero : r = 0
  · subst zero
    rw [if_neg (not_not_intro rfl), Regs.x0]
    rfl
  · rw [if_pos zero, Regs.ofArray]
    simp only [if_neg zero]
    rw [drainedRf, regWrite_apply]
    split
    next inM =>
      -- the youngest older instruction wins, and its result is its ALU result
      simp only [Bool.and_eq_true, beq_iff_eq] at inM
      rw [resultM, late inM.2 (inM.1 ▸ zero) inM.1]
      rfl
    next =>
      rw [rfNegedge, regWrite_apply]
      split
      next => rfl
      next => exact if_pos zero

theorem srcAE_drained (x : Undef) (readDataM : Word) (safe : s.ForwardSafe)
    (read : s.regE.rd1E = regRead s.rf s.regE.rs1E) :
    s.srcAE = (Regs.ofArray (s.drainedRf x readDataM)).get s.regE.rs1E := by
  rw [srcAE, read, forwardAE]
  exact forwarded x readDataM _ (fun writes nonzero same => safe writes nonzero (.inl same))

theorem writeDataE_drained (x : Undef) (readDataM : Word) (safe : s.ForwardSafe)
    (read : s.regE.rd2E = regRead s.rf s.regE.rs2E) :
    s.writeDataE = (Regs.ofArray (s.drainedRf x readDataM)).get s.regE.rs2E := by
  rw [writeDataE, read, forwardBE]
  exact forwarded x readDataM _ (fun writes nonzero same => safe writes nonzero (.inr same))

/-- What the instruction entering M will write joins the drained registers. -/
theorem drainedRf_clock (x x' : Undef) (pcEnable : Bool) (instrF readDataM readDataM' : Word) :
    (s.clock x pcEnable instrF readDataM).drainedRf x' readDataM' =
      regWrite (s.drainedRf x readDataM) s.controlregE.regWriteE s.regE.rdE
        ((s.clock x pcEnable instrF readDataM).resultM x' readDataM') := rfl

end Core

end RiscvLab.Pipelined
