import RiscvLab.Pipelined.Timing

/-!
# auipc in the pipeline

Decode replaces the first operand of `auipc` by its address, but bits 19:15 of
its immediate still reach the hazard unit as a source register. An older
instruction in M or W that writes the register of that number replaces the
address again.
-/
namespace RiscvLab.Pipelined
open RiscvLab.Lib.ByteMemory RiscvLab.Lib.Run RiscvLab.Hdl RiscvLab.Rv32i

section Decode

variable {imem : Ram} {x : Undef} {s : Top}

/-- D is empty or holds a fetched word. -/
def HoldsFetched (imem : Ram) (s : Top) : Prop :=
  s.core.regD = .zero ∨ Fetched imem s.core.regD.pcD s.core.regD

theorem holdsFetched_clock (imem : Ram) (x : Undef) (h : HoldsFetched imem s) :
    HoldsFetched imem (s.clock imem x) := by
  rcases Core.clock_regD x (!s.core.stallF) (s.instrF imem x) (s.readDataM x) (s := s.core) with
    kept | empty | fetched
  · rw [HoldsFetched]
    exact kept ▸ h
  · exact .inl empty
  · rw [HoldsFetched]
    exact .inr (fetched ▸ fetched_instrF s.core.pcF rfl)

theorem topRun_holdsFetched (imem : Ram) (x : Nat → Undef) (rf : RegArray) (dmem : Ram) (n : Nat) :
    HoldsFetched imem (topRun imem x rf dmem n) :=
  run_invariant (fun _ => HoldsFetched imem) (.inl rfl)
    (fun k h => holdsFetched_clock imem (x k) h) n

end Decode

section Forwarding

/-- The older instruction that the hazard unit takes for the source of operand A,
if there is one, computed `v`. -/
def Core.ForwardsOnlyA (s : Core) (v : Word) : Prop :=
  s.regE.rs1E ≠ 0 →
    (s.controlregM.regWriteM = true ∧ s.regM.rdM = s.regE.rs1E → s.regM.aluResultM = v) ∧
    (¬ (s.controlregM.regWriteM = true ∧ s.regM.rdM = s.regE.rs1E) →
      s.regWriteW = true ∧ s.regW.rdW = s.regE.rs1E → s.resultW = v)

instance (s : Core) (v : Word) : Decidable (s.ForwardsOnlyA v) := by
  unfold Core.ForwardsOnlyA
  infer_instance

theorem names_iff {source dest : Reg} {write : Bool} :
    ((source == dest) && write) = true ↔ write = true ∧ dest = source := by
  rw [Bool.and_eq_true, beq_iff_eq]
  exact ⟨fun h => ⟨h.2, h.1.symm⟩, fun h => ⟨h.2.symm, h.1⟩⟩

theorem srcAE_eq_iff (s : Core) : s.srcAE = s.regE.rd1E ↔ s.ForwardsOnlyA s.regE.rd1E := by
  rw [Core.srcAE, Core.forwardAE, Core.ForwardsOnlyA]
  by_cases zero : s.regE.rs1E = 0
  · rw [if_neg (not_not_intro zero)]
    exact iff_of_true rfl (fun nonzero => absurd zero nonzero)
  · rw [if_pos zero]
    by_cases inM : s.controlregM.regWriteM = true ∧ s.regM.rdM = s.regE.rs1E
    · rw [if_pos (names_iff.mpr inM)]
      exact ⟨fun same _ => ⟨fun _ => same, fun other => absurd inM other⟩,
        fun only => (only zero).1 inM⟩
    · rw [if_neg (mt names_iff.mp inM)]
      by_cases inW : s.regWriteW = true ∧ s.regW.rdW = s.regE.rs1E
      · rw [if_pos (names_iff.mpr inW)]
        exact ⟨fun same _ => ⟨fun other => absurd other inM, fun _ _ => same⟩,
          fun only => (only zero).2 inM inW⟩
      · rw [if_neg (mt names_iff.mp inW)]
        exact iff_of_true rfl
          (fun _ => ⟨fun other => absurd other inM, fun _ other => absurd other inW⟩)

end Forwarding

section Result

variable {xd x x' : Undef} {w pc imm : Word} {d : Reg} {s : Top}

/-- What `auipc` writes back is the forwarded operand plus the immediate. -/
theorem auipc_resultM (imem : Ram) (x x' : Undef) (enc : Encodes w (.auipc d imm))
    (holds : s.core.Holds xd w pc) :
    (s.clock imem x).core.controlregM.regWriteM = true ∧ (s.clock imem x).core.regM.rdM = d ∧
    (s.clock imem x).resultM x' = s.core.srcAE + imm := by
  have bits := holds.decoded enc
  have dest := congrArg RegE.rdE holds.data
  have immediate : s.core.regE.immExtE = imm := holds.immediate enc rfl
  have code : s.core.controlregE.aluControlE = aluCode .add := holds.aluControl enc rfl
  simp only [decoded, Decoded.mk.injEq] at bits
  obtain ⟨writes, source, -, -, -, aluSrc, -⟩ := bits
  refine ⟨writes, dest.trans enc.2.1.symm, ?_⟩
  have operand : s.core.srcBE = imm := by
    rw [Core.srcBE, aluSrc, immediate]
    rfl
  rw [clock_resultM, source, Core.aluE, code, operand]
  exact alu_result x .add _ _

theorem auipc_rd1E (enc : Encodes w (.auipc d imm)) (holds : s.core.Holds xd w pc) :
    s.core.regE.rd1E = pc := by
  have bits := congrArg Decoded.auipcSrc (maindec_decoded xd enc)
  rw [holds.data]
  exact if_pos bits

end Result

section Run

variable {imem : Ram} {x : Nat → Undef} {rf : RegArray} {dmem : Ram}

/-- An `auipc` that leaves D for E in some cycle of a run writes its address plus
its immediate in W three cycles later if and only if no older instruction in M or
W replaces its address when it is in E. -/
theorem auipc_correct_iff (imem : Ram) (x : Nat → Undef) (rf : RegArray) (dmem : Ram) (n : Nat)
    (isAuipc : (topRun imem x rf dmem n).core.opD = 0b0010111)
    (enters : (topRun imem x rf dmem n).core.flushE (x n) = false) :
    let d := (topRun imem x rf dmem n).core.regD
    ((indexOf d.pcD).toNat < depth → d.instrD = imem (indexOf d.pcD)) ∧
    (topRun imem x rf dmem (n + 3)).core.regWriteW = true ∧
    (topRun imem x rf dmem (n + 3)).core.regW.rdW = rd d.instrD ∧
    ((topRun imem x rf dmem (n + 3)).core.resultW = d.pcD + immU d.instrD ↔
      (topRun imem x rf dmem (n + 1)).core.ForwardsOnlyA d.pcD) := by
  intro d
  have enc : Encodes d.instrD (.auipc (rd d.instrD) (immU d.instrD)) := ⟨isAuipc, rfl, rfl⟩
  have fetched : Fetched imem d.pcD d := by
    rcases topRun_holdsFetched imem x rf dmem n with empty | fetched
    · rw [Core.opD, empty] at isAuipc
      exact absurd isAuipc (by decide)
    · exact fetched
  have holds : (topRun imem x rf dmem (n + 1)).core.Holds (x n) d.instrD d.pcD :=
    Core.clock_holds (x n) _ _ _ enters fetched.pcPlus4D
  obtain ⟨writes, dest, result⟩ := auipc_resultM imem (x (n + 1)) (x (n + 2)) enc holds
  refine ⟨fetched.instrD, writes, dest, ?_⟩
  have value : (topRun imem x rf dmem (n + 3)).core.resultW =
      (topRun imem x rf dmem (n + 1)).core.srcAE + immU d.instrD := result
  rw [value, ← auipc_rd1E enc holds, ← srcAE_eq_iff]
  exact BitVec.add_left_inj _

/-- An `auipc` whose immediate has the number of `x1` in bits 19:15 of the word. -/
def auipcProgram : Ram := fun index =>
  match index.toNat with
  | 0 => 0x00500093 -- addi x1, x0, 5
  | 1 => 0x00008117 -- auipc x2, 8
  | _ => 0x00000063 -- beq x0, x0, 0

theorem auipc_correct_iff_forwarded :
    (topRun auipcProgram (fun _ => default) (fun _ => 0) (fun _ => 0) 5).core.resultW =
        4 + 0x8000 ↔
      (topRun auipcProgram (fun _ => default) (fun _ => 0) (fun _ => 0) 3).core.ForwardsOnlyA 4 :=
  (auipc_correct_iff auipcProgram (fun _ => default) (fun _ => 0) (fun _ => 0) 2 (by decide +kernel)
    (by decide +kernel)).2.2.2

/-- The `auipc` at address 4 adds its immediate to the 5 of the preceding `addi`. -/
theorem auipc_not_correct :
    ¬ ∀ (imem : Ram) (x : Nat → Undef) (rf : RegArray) (dmem : Ram) (n : Nat),
      (topRun imem x rf dmem n).core.opD = 0b0010111 →
      (topRun imem x rf dmem n).core.flushE (x n) = false →
      (topRun imem x rf dmem (n + 3)).core.resultW =
        (topRun imem x rf dmem n).core.regD.pcD +
          immU (topRun imem x rf dmem n).core.regD.instrD := by
  intro correct
  have wrong : (topRun auipcProgram (fun _ => default) (fun _ => 0) (fun _ => 0) 5).core.resultW =
      0x8005 := by decide +kernel
  have right := correct auipcProgram (fun _ => default) (fun _ => 0) (fun _ => 0) 2
    (by decide +kernel) (by decide +kernel)
  rw [wrong] at right
  revert right
  decide +kernel

end Run

end RiscvLab.Pipelined
