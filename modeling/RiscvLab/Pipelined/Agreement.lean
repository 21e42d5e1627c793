import RiscvLab.Pipelined.Contents

/-!
# Don't-care bits stay inside the core

Two copies of the core that resolve the `x` of the source differently and read
different data words, on a program of opcodes from the decoder's table without
loads and stores. They keep the same program counter and registers: nothing
selects the fields in which they differ.
-/
namespace RiscvLab.Pipelined
open RiscvLab.Lib.ByteMemory RiscvLab.Hdl RiscvLab.Rv32i

/-- The opcodes in the table of `maindec`, without those of loads and stores. -/
def Specified (w : Word) : Prop :=
  opcode w = 0b0110011 ∨ opcode w = 0b1100011 ∨ opcode w = 0b0010011 ∨ opcode w = 0b1101111 ∨
    opcode w = 0b0110111 ∨ opcode w = 0b1100111 ∨ opcode w = 0b0010111 ∨ opcode w = 0b0000000

instance (w : Word) : Decidable (Specified w) := by
  unfold Specified
  infer_instance

/-- Two contents of E that differ in unselected fields only. -/
structure AgreesE (c c' : ControlRegE) (d d' : RegE) : Prop where
  control : { c with aluControlE := 0 } = { c' with aluControlE := 0 }
  aluControl : c.resultSrcE ≠ 0b11 → c.aluControlE = c'.aluControlE ∧ c.aluControlE.toNat < 10
  data : { d with immExtE := 0 } = { d' with immExtE := 0 }
  immediate : c.aluSrcE = true ∨ c.branchE = true ∨ c.jumpE = true → d.immExtE = d'.immExtE
  noLoad : c.resultSrcE = 0b00 ∨ c.resultSrcE = 0b10 ∧ c.jumpE = true ∨
    c.resultSrcE = 0b11 ∧ c.aluSrcE = true ∧ c.branchE = false ∧ c.jumpE = false
  jalr : c.opE = 0b1100111 → c.jumpE = true

section Decode

variable (x x' : Undef)

/-- The ALU decoder has a code for every function of every operation. -/
theorem aludec_defined (opb5 : Bool) (f3 : BitVec 3) (funct7b5 : Bool) (aluOp : BitVec 2) :
    aludec x opb5 f3 funct7b5 aluOp = aludec x' opb5 f3 funct7b5 aluOp ∧
      (aludec x opb5 f3 funct7b5 aluOp).toNat < 10 := by
  have functions : f3 = 0 ∨ f3 = 1 ∨ f3 = 2 ∨ f3 = 3 ∨ f3 = 4 ∨ f3 = 5 ∨ f3 = 6 ∨ f3 = 7 := by
    revert f3
    decide
  have same : ∀ y, aludec x opb5 f3 funct7b5 aluOp = aludec y opb5 f3 funct7b5 aluOp := by
    intro y
    unfold aludec
    rcases functions with rfl | rfl | rfl | rfl | rfl | rfl | rfl | rfl <;> rfl
  have bounded : ∀ (a : Bool) (f : BitVec 3) (b : Bool) (o : BitVec 2),
      (aludec default a f b o).toNat < 10 := by
    decide
  exact ⟨same x', same default ▸ bounded opb5 f3 funct7b5 aluOp⟩

/-- The ALU has an operation for these codes. -/
theorem alu_defined {code : BitVec 4} (h : code.toNat < 10) (a b : Word) :
    alu x a b code = alu x' a b code := by
  have codes : code = 0 ∨ code = 1 ∨ code = 2 ∨ code = 3 ∨ code = 4 ∨ code = 5 ∨ code = 6 ∨
      code = 7 ∨ code = 8 ∨ code = 9 := by
    revert code
    decide
  rcases codes with rfl | rfl | rfl | rfl | rfl | rfl | rfl | rfl | rfl | rfl <;> rfl

theorem extend_defined {format : BitVec 3} (h : format.toNat < 5) (w : Word) :
    extend x w format = extend x' w format := by
  have formats : format = 0 ∨ format = 1 ∨ format = 2 ∨ format = 3 ∨ format = 4 := by
    revert format
    decide
  rcases formats with rfl | rfl | rfl | rfl | rfl <;> rfl

theorem agreesE_zero : AgreesE .zero .zero .zero .zero :=
  ⟨rfl, fun _ => ⟨rfl, by decide⟩, rfl, fun _ => rfl, .inl rfl, fun h => absurd h (by decide)⟩

/-- Two rows of the main decoder that differ in unselected bits only. -/
structure AgreesRow (op : BitVec 7) (md md' : Controls) : Prop where
  bits : { md with immSrc := 0, aluOp := 0 } = { md' with immSrc := 0, aluOp := 0 }
  aluOp : md.resultSrc ≠ 0b11 → md.aluOp = md'.aluOp
  immSrc : md.aluSrc = true ∨ md.branch = true ∨ md.jump = true →
    md.immSrc = md'.immSrc ∧ md.immSrc.toNat < 5
  noLoad : md.resultSrc = 0b00 ∨ md.resultSrc = 0b10 ∧ md.jump = true ∨
    md.resultSrc = 0b11 ∧ md.aluSrc = true ∧ md.branch = false ∧ md.jump = false
  jalr : op = 0b1100111 → md.jump = true

theorem agreesRow {w : Word} (h : Specified w) :
    AgreesRow (opcode w) (maindec x (opcode w)) (maindec x' (opcode w)) := by
  rcases h with op | op | op | op | op | op | op | op <;> rw [op]
  · rw [maindec_reg, maindec_reg]
    exact ⟨rfl, fun _ => rfl, by simp, .inl rfl, by simp⟩
  · rw [maindec_branch, maindec_branch]
    exact ⟨rfl, fun _ => rfl, fun _ => ⟨rfl, by decide⟩, .inl rfl, by simp⟩
  · rw [maindec_imm, maindec_imm]
    exact ⟨rfl, fun _ => rfl, fun _ => ⟨rfl, by decide⟩, .inl rfl, by simp⟩
  · rw [maindec_jal, maindec_jal]
    exact ⟨rfl, fun _ => rfl, fun _ => ⟨rfl, by decide⟩, .inr (.inl ⟨rfl, rfl⟩), by simp⟩
  · rw [maindec_lui, maindec_lui]
    exact ⟨rfl, fun late => absurd rfl late, fun _ => ⟨rfl, (by decide : (4 : BitVec 3).toNat < 5)⟩,
      .inr (.inr ⟨rfl, rfl, rfl, rfl⟩), by simp⟩
  · rw [maindec_jalr, maindec_jalr]
    exact ⟨rfl, fun _ => rfl, fun _ => ⟨rfl, by decide⟩, .inr (.inl ⟨rfl, rfl⟩), fun _ => rfl⟩
  · rw [maindec_auipc, maindec_auipc]
    exact ⟨rfl, fun _ => rfl, fun _ => ⟨rfl, by decide⟩, .inl rfl, by simp⟩
  · rw [maindec_zero, maindec_zero]
    exact ⟨rfl, fun _ => rfl, fun _ => ⟨rfl, by decide⟩, .inl rfl, by simp⟩

/-- What decode hands to E depends on the `x` in unselected fields only. -/
theorem agreesE_decode {d : RegD} (h : Specified d.instrD) (rf : RegArray) :
    AgreesE (Core.controlD x d.instrD) (Core.controlD x' d.instrD) (Core.dataD x rf d)
      (Core.dataD x' rf d) := by
  have row := agreesRow x x' h
  have bits := row.bits
  simp only [Controls.mk.injEq] at bits
  obtain ⟨write, -, aluSrc, memWrite, source, branch, -, jump, auipc⟩ := bits
  refine ⟨?_, fun early => ?_, ?_, fun selected => ?_, row.noLoad, row.jalr⟩
  · simp only [Core.controlD, ControlRegE.mk.injEq]
    exact ⟨write, source, memWrite, jump, branch, trivial, aluSrc, trivial, trivial⟩
  · have op := row.aluOp early
    change aludec x _ _ _ (maindec x (opcode d.instrD)).aluOp =
      aludec x' _ _ _ (maindec x' (opcode d.instrD)).aluOp ∧ _
    rw [← op]
    exact aludec_defined x x' _ _ _ _
  · simp only [Core.dataD, RegE.mk.injEq, and_true]
    exact congrArg (mux2 _ _) auipc
  · obtain ⟨format, known⟩ := row.immSrc selected
    change extend x _ (maindec x (opcode d.instrD)).immSrc =
      extend x' _ (maindec x' (opcode d.instrD)).immSrc
    rw [← format]
    exact extend_defined x x' known d.instrD

end Decode

/-- Two cores that differ in unselected fields only. -/
structure Agrees (s t : Core) : Prop where
  pcF : s.pcF = t.pcF
  regD : s.regD = t.regD
  execute : AgreesE s.controlregE t.controlregE s.regE t.regE
  controlregM : s.controlregM = t.controlregM
  regM : { s.regM with aluResultM := 0, immExtM := 0 } =
    { t.regM with aluResultM := 0, immExtM := 0 }
  aluResultM : s.controlregM.resultSrcM ≠ 0b11 → s.regM.aluResultM = t.regM.aluResultM
  immExtM : s.controlregM.resultSrcM = 0b11 → s.regM.immExtM = t.regM.immExtM
  noLoadM : s.controlregM.resultSrcM ≠ 0b01
  safe : s.ForwardSafe
  regWriteW : s.regWriteW = t.regWriteW
  rdW : s.regW.rdW = t.regW.rdW
  resultW : s.resultW = t.resultW
  rf : s.rf = t.rf

namespace Agrees

variable {s t : Core} {x x' : Undef}

theorem rfNegedge (h : Agrees s t) : s.rfNegedge = t.rfNegedge := by
  rw [Core.rfNegedge, Core.rfNegedge, h.rf, h.regWriteW, h.rdW, h.resultW]

/-- M's ALU result is selected only where it agrees. -/
theorem forwarded (h : Agrees s t) (v : Word) {r : Reg}
    (named : s.regE.rs1E = r ∨ s.regE.rs2E = r) :
    mux3 v s.resultW s.regM.aluResultM
      (if r ≠ 0 then
        if (r == s.regM.rdM) && s.controlregM.regWriteM then 0b10
        else if (r == s.regW.rdW) && s.regWriteW then 0b01
        else 0b00
      else 0b00) =
    mux3 v t.resultW t.regM.aluResultM
      (if r ≠ 0 then
        if (r == t.regM.rdM) && t.controlregM.regWriteM then 0b10
        else if (r == t.regW.rdW) && t.regWriteW then 0b01
        else 0b00
      else 0b00) := by
  have dest : s.regM.rdM = t.regM.rdM := (congrArg RegM.rdM h.regM :)
  rw [← dest, ← h.controlregM, ← h.rdW, ← h.regWriteW, ← h.resultW]
  split
  next nonzero =>
    split
    next inM =>
      rw [Bool.and_eq_true, beq_iff_eq] at inM
      obtain ⟨same, writes⟩ := inM
      have now := h.safe writes (same ▸ nonzero) (named.imp (·.trans same) (·.trans same))
      rw [h.aluResultM (by rw [now]; decide)]
    next => split <;> rfl
  next => rfl

theorem srcAE (h : Agrees s t) : s.srcAE = t.srcAE := by
  have read : s.regE.rd1E = t.regE.rd1E := (congrArg RegE.rd1E h.execute.data :)
  have source : s.regE.rs1E = t.regE.rs1E := (congrArg RegE.rs1E h.execute.data :)
  rw [Core.srcAE, Core.srcAE, Core.forwardAE, Core.forwardAE, ← read, ← source]
  exact h.forwarded _ (.inl rfl)

theorem writeDataE (h : Agrees s t) : s.writeDataE = t.writeDataE := by
  have read : s.regE.rd2E = t.regE.rd2E := (congrArg RegE.rd2E h.execute.data :)
  have source : s.regE.rs2E = t.regE.rs2E := (congrArg RegE.rs2E h.execute.data :)
  rw [Core.writeDataE, Core.writeDataE, Core.forwardBE, Core.forwardBE, ← read, ← source]
  exact h.forwarded _ (.inr rfl)

theorem srcBE (h : Agrees s t) : s.srcBE = t.srcBE := by
  have source : s.controlregE.aluSrcE = t.controlregE.aluSrcE :=
    (congrArg ControlRegE.aluSrcE h.execute.control :)
  rw [Core.srcBE, Core.srcBE, ← source, h.writeDataE]
  cases immediate : s.controlregE.aluSrcE with
  | true => exact h.execute.immediate (.inl immediate)
  | false => rfl

theorem aluE (h : Agrees s t) (x x' : Undef) (early : s.controlregE.resultSrcE ≠ 0b11) :
    s.aluE x = t.aluE x' := by
  obtain ⟨code, known⟩ := h.execute.aluControl early
  rw [Core.aluE, Core.aluE, h.srcAE, h.srcBE, ← code]
  exact alu_defined x x' known _ _

theorem pcSrc0 (h : Agrees s t) (x x' : Undef) : s.pcSrc0 x = t.pcSrc0 x' := by
  have branch : s.controlregE.branchE = t.controlregE.branchE :=
    (congrArg ControlRegE.branchE h.execute.control :)
  have jump : s.controlregE.jumpE = t.controlregE.jumpE :=
    (congrArg ControlRegE.jumpE h.execute.control :)
  have function : s.controlregE.funct3E = t.controlregE.funct3E :=
    (congrArg ControlRegE.funct3E h.execute.control :)
  rw [Core.pcSrc0, Core.pcSrc0, ← branch, ← jump, ← function]
  cases decides : s.controlregE.branchE with
  | false => rfl
  | true =>
    have early : s.controlregE.resultSrcE ≠ 0b11 := by
      intro late
      rcases h.execute.noLoad with source | ⟨source, -⟩ | ⟨-, -, quiet, -⟩
      · rw [source] at late
        exact absurd late (by decide)
      · rw [source] at late
        exact absurd late (by decide)
      · rw [decides] at quiet
        cases quiet
    rw [h.aluE x x' early]

theorem pcSrc1 (h : Agrees s t) : s.pcSrc1 = t.pcSrc1 := by
  have op : s.controlregE.opE = t.controlregE.opE := (congrArg ControlRegE.opE h.execute.control :)
  rw [Core.pcSrc1_eq, Core.pcSrc1_eq, op]

theorem lwStallD (h : Agrees s t) : s.lwStallD = t.lwStallD := by
  have source : s.controlregE.resultSrcE = t.controlregE.resultSrcE :=
    (congrArg ControlRegE.resultSrcE h.execute.control :)
  have dest : s.regE.rdE = t.regE.rdE := (congrArg RegE.rdE h.execute.data :)
  rw [Core.lwStallD, Core.lwStallD, Core.rs1D, Core.rs1D, Core.rs2D, Core.rs2D, source, dest,
    h.regD]

theorem pcNextF (h : Agrees s t) (x x' : Undef) : s.pcNextF x = t.pcNextF x' := by
  have pc : s.regE.pcE = t.regE.pcE := (congrArg RegE.pcE h.execute.data :)
  have immediate : s.pcSrc0 x = true ∨ s.pcSrc1 = true → s.regE.immExtE = t.regE.immExtE := by
    intro redirect
    apply h.execute.immediate
    rcases redirect with direct | indirect
    · rw [Core.pcSrc0, Bool.or_eq_true, Bool.and_eq_true] at direct
      exact .inr (direct.imp And.left id)
    · rw [Core.pcSrc1_eq, beq_iff_eq] at indirect
      exact .inr (.inr (h.execute.jalr indirect))
  rw [Core.pcNextF, Core.pcNextF, Core.pcSrcE, Core.pcSrcE, ← h.pcSrc0 x x', ← h.pcSrc1,
    Core.pcPlus4F, Core.pcPlus4F, h.pcF, Core.pcTargetE, Core.pcTargetE, ← pc, Core.jalrTarget,
    Core.jalrTarget, h.srcAE]
  cases direct : s.pcSrc0 x with
  | true => rw [immediate (.inl direct)]
  | false =>
    cases indirect : s.pcSrc1 with
    | true => rw [immediate (.inr indirect)]
    | false => rfl

/-- The value that M will write back does not depend on the `x` or on the word read. -/
theorem resultM (h : Agrees s t) (x x' : Undef) (readDataM readDataM' : Word) :
    s.resultM x readDataM = t.resultM x' readDataM' := by
  have link : s.regM.pcPlus4M = t.regM.pcPlus4M := (congrArg RegM.pcPlus4M h.regM :)
  have sources : s.controlregM.resultSrcM = 0b00 ∨ s.controlregM.resultSrcM = 0b10 ∨
      s.controlregM.resultSrcM = 0b11 := by
    have all : ∀ source : BitVec 2, source ≠ 0b01 → source = 0b00 ∨ source = 0b10 ∨
        source = 0b11 := by decide
    exact all _ h.noLoadM
  rw [Core.resultM, Core.resultM, ← h.controlregM, ← link]
  rcases sources with source | source | source
  · rw [h.aluResultM (by rw [source]; decide), source]
    rfl
  · rw [source]
    rfl
  · rw [h.immExtM source, source]
    rfl

/-- One clock cycle keeps two cores in agreement if it leaves them at the same address. -/
theorem clock (h : Agrees s t) (specified : Specified s.regD.instrD) (x x' : Undef)
    {pcEnable pcEnable' : Bool} (instrF readDataM readDataM' : Word)
    (pc : (s.clock x pcEnable instrF readDataM).pcF =
      (t.clock x' pcEnable' instrF readDataM').pcF) :
    Agrees (s.clock x pcEnable instrF readDataM) (t.clock x' pcEnable' instrF readDataM') := by
  have flushD : s.flushD x = t.flushD x' := by
    rw [Core.flushD_eq, Core.flushD_eq, h.pcSrc0 x x']
  have flushE : s.flushE x = t.flushE x' := by
    rw [Core.flushE_eq, Core.flushE_eq, h.lwStallD, h.pcSrc0 x x']
  have control := h.execute.control
  have data := h.execute.data
  have dataM := h.regM
  simp only [ControlRegE.mk.injEq] at control
  simp only [RegE.mk.injEq] at data
  simp only [RegM.mk.injEq] at dataM
  obtain ⟨write, source, memWrite, -, -, -, aluSrc, -, -⟩ := control
  obtain ⟨-, -, -, -, -, dest, -, link, function⟩ := data
  constructor
  case pcF => exact pc
  case regD =>
    change flopenrc _ (s.flushD x) (!s.lwStallD) ⟨instrF, s.pcF, adder s.pcF 4⟩ s.regD =
      flopenrc _ (t.flushD x') (!t.lwStallD) ⟨instrF, t.pcF, adder t.pcF 4⟩ t.regD
    rw [flushD, h.lwStallD, h.pcF, h.regD]
  case execute =>
    change AgreesE (floprc _ (s.flushE x) (Core.controlD x s.regD.instrD))
      (floprc _ (t.flushE x') (Core.controlD x' t.regD.instrD))
      (floprc _ (s.flushE x) (Core.dataD x s.rfNegedge s.regD))
      (floprc _ (t.flushE x') (Core.dataD x' t.rfNegedge t.regD))
    rw [← flushE, ← h.regD, ← h.rfNegedge]
    cases s.flushE x with
    | true => exact agreesE_zero
    | false => exact agreesE_decode x x' specified s.rfNegedge
  case controlregM =>
    change ControlRegM.mk _ _ _ = ControlRegM.mk _ _ _
    rw [write, source, memWrite]
  case regM =>
    change RegM.mk 0 s.regE.rdE s.regE.pcPlus4E 0 s.controlregE.aluSrcE s.regE.funct3E
        s.writeDataE =
      RegM.mk 0 t.regE.rdE t.regE.pcPlus4E 0 t.controlregE.aluSrcE t.regE.funct3E t.writeDataE
    rw [dest, link, aluSrc, function, h.writeDataE]
  case aluResultM => exact fun early => congrArg AluOut.result (h.aluE x x' early)
  case immExtM =>
    intro late
    change s.controlregE.resultSrcE = 0b11 at late
    apply h.execute.immediate
    rcases h.execute.noLoad with other | ⟨other, -⟩ | ⟨-, selected, -⟩
    · rw [other] at late
      exact absurd late (by decide)
    · rw [other] at late
      exact absurd late (by decide)
    · exact .inl selected
  case noLoadM =>
    change s.controlregE.resultSrcE ≠ 0b01
    rcases h.execute.noLoad with known | ⟨known, -⟩ | ⟨known, -⟩ <;> rw [known] <;> decide
  case safe =>
    refine Core.clock_forwardSafe (fun _ => ?_) _ _ _
    rcases h.execute.noLoad with known | ⟨-, jump⟩ | ⟨known, -⟩
    · exact .inl known
    · refine .inr (.inr ?_)
      rw [Core.pcSrc0, jump, Bool.or_true]
    · refine .inr (.inl ?_)
      rw [known]
      decide
  case regWriteW => exact congrArg ControlRegM.regWriteM h.controlregM
  case rdW => exact dataM.2.1
  case resultW => exact h.resultM x x' readDataM readDataM'
  case rf => exact h.rfNegedge

theorem reset (rf : RegArray) : Agrees (.reset rf) (.reset rf) :=
  ⟨rfl, rfl, agreesE_zero, rfl, rfl, fun _ => rfl, fun _ => rfl,
    (by decide : (0 : BitVec 2) ≠ 0b01), fun writes => absurd writes Bool.false_ne_true,
    rfl, rfl, rfl, rfl⟩

end Agrees

/-- A specified word stays in D as long as only specified words are fetched. -/
theorem specified_clock {s : Core} (h : Specified s.regD.instrD) (x : Undef) (pcEnable : Bool)
    {instrF : Word} (fetched : Specified instrF) (readDataM : Word) :
    Specified (s.clock x pcEnable instrF readDataM).regD.instrD :=
  Core.clock_instrD x pcEnable instrF readDataM (by decide) h fetched

end RiscvLab.Pipelined
