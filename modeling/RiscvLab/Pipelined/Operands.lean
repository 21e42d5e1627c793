import RiscvLab.Pipelined.Agreement
import RiscvLab.Pipelined.Forwarding
import RiscvLab.Pipelined.Top

/-!
# Operands in the execute stage

Whatever stalls, flushes and forwards led to a cycle, an instruction in E works on
the registers as the instructions in W and M leave them, two cycles later. A word
counts as an instruction as soon as its opcode is in the table of the main decoder.
-/
namespace RiscvLab.Pipelined
open RiscvLab.Lib.ByteMemory RiscvLab.Lib.Run RiscvLab.Hdl RiscvLab.Rv32i

/-- The opcodes in the table of `maindec`. -/
def InTable (w : Word) : Prop :=
  opcode w = 0b0000011 ∨ opcode w = 0b0100011 ∨ Specified w

instance (w : Word) : Decidable (InTable w) := by
  unfold InTable
  infer_instance

/-- The instructions that read `rs1`: loads, immediate and register arithmetic, stores,
branches and `jalr`. -/
def ReadsRs1 (op : BitVec 7) : Prop :=
  op = 0b0000011 ∨ op = 0b0010011 ∨ op = 0b0110011 ∨ op = 0b0100011 ∨ op = 0b1100011 ∨
    op = 0b1100111

/-- The instructions that read `rs2`: register arithmetic, stores and branches. -/
def ReadsRs2 (op : BitVec 7) : Prop := op = 0b0110011 ∨ op = 0b0100011 ∨ op = 0b1100011

theorem ReadsRs1.noAuipc {op : BitVec 7} (h : ReadsRs1 op) : op ≠ 0b0010111 := by
  rintro rfl
  revert h
  unfold ReadsRs1
  decide

/-- Only `auipc` replaces its first operand, and a result that the ALU does not
compute comes from a row that stalls or jumps. -/
theorem inTable_row (x : Undef) {w : Word} (h : InTable w) :
    (opcode w ≠ 0b0010111 → (maindec x (opcode w)).auipcSrc = false) ∧
      ((maindec x (opcode w)).regWrite = true → (maindec x (opcode w)).resultSrc = 0 ∨
        (maindec x (opcode w)).resultSrc.getLsbD 0 = true ∨ (maindec x (opcode w)).jump = true) := by
  have early : (0b01 : BitVec 2).getLsbD 0 = true := rfl
  have upper : (0b11 : BitVec 2).getLsbD 0 = true := rfl
  rcases h with op | op | op | op | op | op | op | op | op | op <;> rw [op]
  · rw [maindec_load]
    exact ⟨fun _ => rfl, fun _ => .inr (.inl early)⟩
  · rw [maindec_store]
    exact ⟨fun _ => rfl, fun _ => .inl rfl⟩
  · rw [maindec_reg]
    exact ⟨fun _ => rfl, fun _ => .inl rfl⟩
  · rw [maindec_branch]
    exact ⟨fun _ => rfl, fun _ => .inl rfl⟩
  · rw [maindec_imm]
    exact ⟨fun _ => rfl, fun _ => .inl rfl⟩
  · rw [maindec_jal]
    exact ⟨fun _ => rfl, fun _ => .inr (.inr rfl)⟩
  · rw [maindec_lui]
    exact ⟨fun _ => rfl, fun _ => .inr (.inl upper)⟩
  · rw [maindec_jalr]
    exact ⟨fun _ => rfl, fun _ => .inr (.inr rfl)⟩
  · rw [maindec_auipc]
    exact ⟨fun other => absurd rfl other, fun _ => .inl rfl⟩
  · rw [maindec_zero]
    exact ⟨fun _ => rfl, fun _ => .inl rfl⟩

namespace Core

/-- E has read its operands from the register file as it is now, and M's ALU result
is forwarded only if it is M's result. -/
structure Supplied (s : Core) : Prop where
  read1 : s.controlregE.opE ≠ 0b0010111 → s.regE.rd1E = regRead s.rf s.regE.rs1E
  read2 : s.regE.rd2E = regRead s.rf s.regE.rs2E
  late : s.controlregE.regWriteE = true → s.controlregE.resultSrcE = 0 ∨
    s.controlregE.resultSrcE.getLsbD 0 = true ∨ s.controlregE.jumpE = true
  safe : s.ForwardSafe

variable {s : Core} (x : Undef) (pcEnable : Bool) (instrF readDataM : Word)

theorem supplied_reset (rf : RegArray) : (Core.reset rf).Supplied :=
  ⟨fun _ => rfl, rfl, fun writes => absurd writes Bool.false_ne_true,
    fun writes => absurd writes Bool.false_ne_true⟩

/-- One clock cycle supplies the word that enters E, if one does. -/
theorem Supplied.clock (h : s.Supplied) (table : s.flushE x = false → InTable s.regD.instrD) :
    (s.clock x pcEnable instrF readDataM).Supplied := by
  have safe : (s.clock x pcEnable instrF readDataM).ForwardSafe := by
    refine clock_forwardSafe (fun writes => ?_) pcEnable instrF readDataM
    rcases h.late writes with now | stalls | jumps
    · exact .inl now
    · exact .inr (.inl stalls)
    · refine .inr (.inr ?_)
      rw [pcSrc0, jumps, Bool.or_true]
  cases flush : s.flushE x with
  | true =>
    have empty := clock_bubble x pcEnable instrF readDataM flush
    refine ⟨fun _ => ?_, ?_, fun writes => ?_, safe⟩
    · rw [empty.data]
      rfl
    · rw [empty.data]
      rfl
    · rw [empty.control] at writes
      cases writes
  | false =>
    obtain ⟨plain, late⟩ := inTable_row x (table flush)
    have control : (s.clock x pcEnable instrF readDataM).controlregE =
        floprc .zero (s.flushE x) (controlD x s.regD.instrD) := rfl
    have data : (s.clock x pcEnable instrF readDataM).regE =
        floprc .zero (s.flushE x) (dataD x s.rfNegedge s.regD) := rfl
    rw [flush] at control data
    refine ⟨fun other => ?_, ?_, fun writes => ?_, safe⟩
    · rw [control] at other
      rw [data]
      exact if_neg (ne_true_of_eq_false (plain other))
    · rw [data]
      rfl
    · rw [control] at writes ⊢
      exact late writes

end Core

section Run

variable {imem : Ram} {x : Nat → Undef} {rf : RegArray} {dmem : Ram}

theorem topRun_supplied (n : Nat) (entered : ∀ k < n,
      (topRun imem x rf dmem k).core.flushE (x k) = false →
        InTable (topRun imem x rf dmem k).core.regD.instrD) :
    (topRun imem x rf dmem n).core.Supplied :=
  run_invariant_to (fun _ (s : Top) => s.core.Supplied) (Core.supplied_reset rf)
    (fun k before h => h.clock (x k) _ _ _ (entered k before)) n (Nat.le_refl n)

/-- The register file two cycles on has the writes of the instructions now in W and M. -/
theorem topRun_rf (n : Nat) :
    (topRun imem x rf dmem (n + 2)).core.rf = (topRun imem x rf dmem n).drainedRf (x n) := rfl

/-- M's ALU result is forwarded for a register that M writes. -/
theorem forward_memory {r d d' : BitVec 5} {we we' : Bool}
    (h : (if r ≠ 0 then
        if (r == d) && we then 0b10 else if (r == d') && we' then 0b01 else 0b00
      else 0b00 : BitVec 2) = 0b10) : r ≠ 0 ∧ r = d ∧ we = true := by
  split at h
  next nonzero =>
    split at h
    next inM =>
      simp only [Bool.and_eq_true, beq_iff_eq] at inM
      exact ⟨nonzero, inM⟩
    next => split at h <;> cases h
  next => cases h

/-- As long as only words of the decoder's table have entered E, an instruction in E has
the operands that the register file holds once the instructions in W and M have
written back, 0 for register 0, and ALU results are forwarded from M only where they
are the result. -/
theorem operands_correct (imem : Ram) (x : Nat → Undef) (rf : RegArray) (dmem : Ram) (n : Nat)
    (entered : ∀ k < n, (topRun imem x rf dmem k).core.flushE (x k) = false →
      InTable (topRun imem x rf dmem k).core.regD.instrD) :
    (ReadsRs1 (topRun imem x rf dmem n).core.controlregE.opE →
      (topRun imem x rf dmem n).core.srcAE =
          regRead (topRun imem x rf dmem (n + 2)).core.rf
            (topRun imem x rf dmem n).core.regE.rs1E ∧
        ((topRun imem x rf dmem n).core.regE.rs1E = 0 →
          (topRun imem x rf dmem n).core.srcAE = 0)) ∧
    (ReadsRs2 (topRun imem x rf dmem n).core.controlregE.opE →
      (topRun imem x rf dmem n).core.writeDataE =
          regRead (topRun imem x rf dmem (n + 2)).core.rf
            (topRun imem x rf dmem n).core.regE.rs2E ∧
        ((topRun imem x rf dmem n).core.regE.rs2E = 0 →
          (topRun imem x rf dmem n).core.writeDataE = 0)) ∧
    ((topRun imem x rf dmem n).core.forwardAE = 0b10 ∨
        (topRun imem x rf dmem n).core.forwardBE = 0b10 →
      (topRun imem x rf dmem n).core.controlregM.resultSrcM = 0b00) := by
  have supplied := topRun_supplied n entered
  refine ⟨fun reads => ?_, fun _ => ?_, fun forwards => ?_⟩
  · have operand : (topRun imem x rf dmem n).core.srcAE =
        regRead (topRun imem x rf dmem (n + 2)).core.rf
          (topRun imem x rf dmem n).core.regE.rs1E := by
      rw [topRun_rf, regRead_eq]
      exact Core.srcAE_drained _ _ supplied.safe (supplied.read1 reads.noAuipc)
    refine ⟨operand, fun zero => ?_⟩
    rw [operand, zero]
    rfl
  · have operand : (topRun imem x rf dmem n).core.writeDataE =
        regRead (topRun imem x rf dmem (n + 2)).core.rf
          (topRun imem x rf dmem n).core.regE.rs2E := by
      rw [topRun_rf, regRead_eq]
      exact Core.writeDataE_drained _ _ supplied.safe supplied.read2
    refine ⟨operand, fun zero => ?_⟩
    rw [operand, zero]
    rfl
  · rcases forwards with first | second
    · obtain ⟨nonzero, names, writes⟩ := forward_memory first
      exact supplied.safe writes (names ▸ nonzero) (.inl names)
    · obtain ⟨nonzero, names, writes⟩ := forward_memory second
      exact supplied.safe writes (names ▸ nonzero) (.inr names)

/-- An instruction with destination `x0`, a load, and two instructions that read them. -/
def operandProgram : Ram := fun index =>
  match index.toNat with
  | 0 => 0x00700013 -- addi x0, x0, 7
  | 1 => 0x000000b3 -- add x1, x0, x0
  | 2 => 0x00002103 -- lw x2, 0(x0)
  | 3 => 0x002101b3 -- add x3, x2, x2
  | _ => 0x00000063 -- beq x0, x0, 0

theorem operandProgram_entered (n : Nat) : InTable (topRun operandProgram (fun _ => default)
    (fun _ => 0) (fun _ => 9) n).core.regD.instrD := by
  have word : ∀ index, InTable (operandProgram index) := by
    intro index
    rw [operandProgram]
    split <;> decide
  have outside : InTable (default : Undef).instr := by decide
  refine run_invariant (fun _ (s : Top) => InTable s.core.regD.instrD) (by decide) (fun k h => ?_) n
  refine Core.clock_instrD _ _ _ _ (by decide) h ?_
  rw [Top.instrF, ramRead]
  split
  · exact word _
  · exact outside

/-- `add x1, x0, x0` sees 0 although `x0` is being written; `add x3, x2, x2` sees the word
loaded. -/
theorem operands_correct_load :
    (topRun operandProgram (fun _ => default) (fun _ => 0) (fun _ => 9) 3).core.srcAE = 0 ∧
    (topRun operandProgram (fun _ => default) (fun _ => 0) (fun _ => 9) 6).core.srcAE =
      regRead (topRun operandProgram (fun _ => default) (fun _ => 0) (fun _ => 9) 8).core.rf 2 ∧
    (topRun operandProgram (fun _ => default) (fun _ => 0) (fun _ => 9) 6).core.srcAE = 9 := by
  have correct : ∀ n, _ := fun n => operands_correct operandProgram (fun _ => default)
    (fun _ => 0) (fun _ => 9) n (fun k _ _ => operandProgram_entered k)
  refine ⟨((correct 3).1 ?_).2 ?_, ((correct 6).1 ?_).1, ?_⟩
  · unfold ReadsRs1
    decide +kernel
  · decide +kernel
  · unfold ReadsRs1
    decide +kernel
  · decide +kernel

/-- A `csrrs`, which `maindec` does not decode, and an instruction that reads its register. -/
def csrProgram : Ram := fun index =>
  match index.toNat with
  | 0 => 0x300020f3 -- csrrs x1, mstatus, x0
  | 1 => 0x00008113 -- addi x2, x1, 0
  | _ => 0x00000063 -- beq x0, x0, 0

/-- Outside its table the decoder happens to choose a link, but no jump. -/
def linkUndef : Undef := { (default : Undef) with controls := 0b1_000_1_0_10_0_00_0_0 }

/-- The `csrrs` links 4 into `x1`; `addi x2, x1, 0`, right behind it, has been given
the ALU's 0x300. -/
theorem operands_outside_table :
    ReadsRs1 (topRun csrProgram (fun _ => linkUndef) (fun _ => 0) (fun _ => 0)
      3).core.controlregE.opE ∧
    (topRun csrProgram (fun _ => linkUndef) (fun _ => 0) (fun _ => 0) 3).core.srcAE = 0x300 ∧
    regRead (topRun csrProgram (fun _ => linkUndef) (fun _ => 0) (fun _ => 0) (3 + 2)).core.rf
      (topRun csrProgram (fun _ => linkUndef) (fun _ => 0) (fun _ => 0) 3).core.regE.rs1E = 4 ∧
    (topRun csrProgram (fun _ => linkUndef) (fun _ => 0) (fun _ => 0) 3).core.forwardAE = 0b10 ∧
    (topRun csrProgram (fun _ => linkUndef) (fun _ => 0) (fun _ => 0)
      3).core.controlregM.resultSrcM = 0b10 := by
  refine ⟨?_, ?_, ?_, ?_, ?_⟩
  · unfold ReadsRs1
    decide +kernel
  · decide +kernel
  · decide +kernel
  · decide +kernel
  · decide +kernel

end Run

end RiscvLab.Pipelined
