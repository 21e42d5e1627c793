import RiscvLab.Pipelined.Contents
import RiscvLab.Pipelined.MemoryUnits
import RiscvLab.Pipelined.Top

/-!
# The execute stage

An instruction in E that has its architectural operands leaves E with its
architectural effects: the register write and the store that M will perform,
and the redirection of the fetch stage.
-/
namespace RiscvLab.Pipelined
open RiscvLab.Lib.ByteMemory RiscvLab.Hdl RiscvLab.Rv32i

/-- An instruction in E with its operands, on a data memory that is up to date. -/
structure Issues (xd x : Undef) (w : Word) (i : Instr) (a : Arch) (s : Top) : Prop where
  encodes : Encodes w i
  holds : s.core.Holds xd w a.pc
  noAuipc : isAuipc i = false
  operandA : s.core.srcAE = a.regs.get (rs1 w)
  operandB : s.core.writeDataE = a.regs.get (rs2 w)
  memory : ∀ index : BitVec 30, index.toNat < depth →
    s.nextDmem x index = wordAt (n := 30) a.mem index
  dataOk : DataOk depth a i

section Effects

variable {imem : Ram} {xd x x' : Undef} {w : Word} {i : Instr} {a : Arch} {s : Top}

theorem Issues.operandImm (h : Issues xd x w i a s) {imm : Word} (hi : immOf i = some imm)
    (source : (decoded i).aluSrc = true) : s.core.srcBE = imm := by
  have bits := congrArg Decoded.aluSrc (h.holds.decoded h.encodes)
  rw [source] at bits
  rw [Core.srcBE, h.holds.immediate h.encodes hi]
  exact if_pos bits

theorem Issues.operandReg (h : Issues xd x w i a s) (source : (decoded i).aluSrc = false) :
    s.core.srcBE = a.regs.get (rs2 w) := by
  have bits := congrArg Decoded.aluSrc (h.holds.decoded h.encodes)
  rw [source] at bits
  rw [Core.srcBE, ← h.operandB]
  exact if_neg (by simpa using bits)

/-- The ALU performs the instruction's operation. -/
theorem Issues.aluE (h : Issues xd x w i a s) {code : BitVec 4} (hc : aluCodeOf i = some code) :
    s.core.aluE x = alu x (a.regs.get (rs1 w)) s.core.srcBE code := by
  rw [Core.aluE, h.holds.aluControl h.encodes hc, h.operandA]

theorem Issues.address (h : Issues xd x w i a s) {size : Nat} {address : Word}
    (ha : access a i = some (size, address)) : (s.core.aluE x).result = address := by
  have enc := h.encodes
  cases i with
  | load op d r1 imm =>
    cases ha
    obtain ⟨-, -, -, rfl, -⟩ := enc
    rw [h.aluE rfl, h.operandImm rfl rfl, alu_result, aluResult]
  | store op r1 r2 imm =>
    cases ha
    obtain ⟨-, -, rfl, -, -⟩ := enc
    rw [h.aluE rfl, h.operandImm rfl rfl, alu_result, aluResult]
  | reg | imm | branch | jal | jalr | lui | auipc => cases ha

/-- The word that M will read for a data access. -/
theorem Issues.readData (h : Issues xd x w i a s) {size : Nat} {address : Word}
    (ha : access a i = some (size, address)) :
    (s.clock imem x).readDataM x' = wordAt (n := 30) a.mem (indexOf address) := by
  have inside := (h.dataOk size address ha).2
  change ramRead depth (s.nextDmem x) x'.data (s.core.aluE x).result = _
  rw [h.address ha, ramRead]
  exact (if_pos inside).trans (h.memory _ inside)

theorem clock_resultM (imem : Ram) (x x' : Undef) (s : Top) : (s.clock imem x).resultM x' =
    mux4 (s.core.aluE x).result
      (load x' s.core.controlregE.regWriteE s.core.controlregE.aluSrcE
        s.core.controlregE.resultSrcE s.core.regE.funct3E (s.core.aluE x).result
        ((s.clock imem x).readDataM x'))
      s.core.regE.pcPlus4E s.core.regE.immExtE s.core.controlregE.resultSrcE := rfl

/-- What M will write back is the architectural result. -/
theorem Issues.regResult (h : Issues xd x w i a s) (imem : Ram) (x' : Undef) :
    (if (s.clock imem x).core.controlregM.regWriteM then
      some ((s.clock imem x).core.regM.rdM, (s.clock imem x).resultM x') else none) =
      regResult a i := by
  have bits := h.holds.decoded h.encodes
  have dest := congrArg RegE.rdE h.holds.data
  have link := congrArg RegE.pcPlus4E h.holds.data
  have function := congrArg RegE.funct3E h.holds.data
  change (if s.core.controlregE.regWriteE then some (s.core.regE.rdE, _) else none) = _
  rw [clock_resultM, dest, link, function]
  have enc := h.encodes
  cases i with
  | load op d r1 imm =>
    simp only [RiscvLab.Pipelined.decoded, Decoded.mk.injEq] at bits
    obtain ⟨write, source, -, -, -, aluSrc, -⟩ := bits
    obtain ⟨-, kind, rfl, rfl, rfl⟩ := enc
    have aligned := (h.dataOk _ _ rfl).1
    rw [write, source, aluSrc, h.address rfl, h.readData rfl]
    exact (congrArg (fun v => some (rd w, v)) (load_unit x' _ kind aligned)).trans
      (congrArg (fun v => some (rd w, v)) (loadResult_word a.mem aligned).symm)
  | store op r1 r2 imm =>
    simp only [RiscvLab.Pipelined.decoded, Decoded.mk.injEq] at bits
    rw [bits.1]
    rfl
  | branch op r1 r2 imm =>
    simp only [RiscvLab.Pipelined.decoded, Decoded.mk.injEq] at bits
    rw [bits.1]
    rfl
  | reg op d r1 r2 =>
    have operand := h.operandReg rfl
    have result := congrArg AluOut.result (h.aluE rfl)
    simp only [RiscvLab.Pipelined.decoded, Decoded.mk.injEq] at bits
    obtain ⟨-, -, rfl, rfl, rfl⟩ := enc
    rw [bits.1, bits.2.1, result, operand, alu_result]
    rfl
  | imm op d r1 imm =>
    have operand := h.operandImm rfl rfl
    have result := congrArg AluOut.result (h.aluE rfl)
    simp only [RiscvLab.Pipelined.decoded, Decoded.mk.injEq] at bits
    obtain ⟨-, -, rfl, rfl, -⟩ := enc
    rw [bits.1, bits.2.1, result, operand, alu_result]
    rfl
  | jal d imm =>
    simp only [RiscvLab.Pipelined.decoded, Decoded.mk.injEq] at bits
    obtain ⟨-, rfl, -⟩ := enc
    rw [bits.1, bits.2.1]
    rfl
  | jalr d r1 imm =>
    simp only [RiscvLab.Pipelined.decoded, Decoded.mk.injEq] at bits
    obtain ⟨-, -, rfl, -, -⟩ := enc
    rw [bits.1, bits.2.1]
    rfl
  | lui d imm =>
    have immediate : s.core.regE.immExtE = imm := h.holds.immediate h.encodes rfl
    simp only [RiscvLab.Pipelined.decoded, Decoded.mk.injEq] at bits
    obtain ⟨-, rfl, -⟩ := enc
    rw [bits.1, bits.2.1, immediate]
    rfl
  | auipc d imm => cases h.noAuipc

/-- The word on the write port of `dmem` when a store is in M. -/
theorem Issues.storeWord (h : Issues xd x w i a s) {op : StoreOp} {r1 r2 : Reg} {imm : Word}
    (store : i = .store op r1 r2 imm) :
    (s.clock imem x).writeDataM x' =
      wordAt (n := 30) (memResult a i) (indexOf (a.regs.get r1 + imm)) := by
  subst store
  have bits := h.holds.decoded h.encodes
  simp only [RiscvLab.Pipelined.decoded, Decoded.mk.injEq] at bits
  obtain ⟨write, -, store, -⟩ := bits
  have function := congrArg RegE.funct3E h.holds.data
  have aligned := (h.dataOk _ _ rfl).1
  obtain ⟨-, kind, -, rfl, -⟩ := h.encodes
  change Pipelined.store x' s.core.controlregE.memWriteE s.core.regE.funct3E
    (s.core.aluE x).result (load x' s.core.controlregE.regWriteE _ _ _ _
      ((s.clock imem x).readDataM x')) s.core.writeDataE = _
  rw [write, store, function, h.address rfl, h.readData rfl, h.operandB, load_transparent]
  simp only [memResult]
  rw [wordAt_store _ _ _ aligned, if_pos rfl]
  exact store_unit x' _ _ kind aligned

theorem Issues.memWriteM (h : Issues xd x w i a s) :
    (s.clock imem x).core.controlregM.memWriteM = (decoded i).memWrite :=
  congrArg Decoded.memWrite (h.holds.decoded h.encodes)

/-- The word M will store is the architectural store. -/
theorem Issues.memWrites (h : Issues xd x w i a s) :
    (s.clock imem x).memWrites x' = memEvents a i := by
  rw [Top.memWrites, h.memWriteM]
  cases i with
  | store op r1 r2 imm =>
    rw [h.storeWord rfl]
    change [(wordIndex (s.core.aluE x).result, _)] = _
    rw [h.address rfl]
    rfl
  | load | reg | imm | branch | jal | jalr | lui | auipc => rfl

/-- The data memory that M will leave is the architectural one. -/
theorem Issues.nextDmem (h : Issues xd x w i a s) (index : BitVec 30)
    (inside : index.toNat < depth) :
    (s.clock imem x).nextDmem x' index = wordAt (n := 30) (memResult a i) index := by
  have before := h.memory index inside
  rw [Top.nextDmem, h.memWriteM, ramWrite]
  cases i with
  | store op r1 r2 imm =>
    obtain ⟨aligned, within⟩ := h.dataOk _ _ rfl
    have target : wordIndex (s.clock imem x).core.regM.aluResultM =
        indexOf (a.regs.get r1 + imm) := congrArg wordIndex (h.address rfl)
    rw [target, h.storeWord rfl]
    change (if true && decide _ then Function.update (s.nextDmem x) _ _ else _) index = _
    rw [decide_eq_true within]
    change Function.update (s.nextDmem x) _ _ index = _
    by_cases same : index = indexOf (a.regs.get r1 + imm)
    · rw [same, Function.update_self]
    · rw [Function.update_of_ne same, before]
      simp only [memResult]
      rw [wordAt_store _ _ _ aligned, if_neg same]
  | load | reg | imm | branch | jal | jalr | lui | auipc => exact before

/-- The fetch stage is redirected exactly when the instruction is taken. -/
theorem Issues.pcSrc0 (h : Issues xd x w i a s) : s.core.pcSrc0 x = taken a i := by
  have bits := h.holds.decoded h.encodes
  have function := congrArg ControlRegE.funct3E h.holds.control
  rw [Core.pcSrc0, function]
  cases i with
  | branch op r1 r2 imm =>
    have flags := h.aluE rfl
    rw [h.operandReg rfl] at flags
    simp only [RiscvLab.Pipelined.decoded, Decoded.mk.injEq] at bits
    obtain ⟨-, kind, rfl, rfl, -⟩ := h.encodes
    rw [bits.2.2.2.1, bits.2.2.2.2.1, flags, Bool.true_and, Bool.or_false]
    exact branchCondition_sub x kind _ _
  | load | store | reg | imm | jal | jalr | lui | auipc =>
    simp only [RiscvLab.Pipelined.decoded, Decoded.mk.injEq] at bits
    rw [bits.2.2.2.1, bits.2.2.2.2.1]
    simp [taken]

/-- The next fetch address of a taken instruction is the architectural one, unless
it is a `jalr` with an odd sum: the adder's lowest bit is not cleared. -/
theorem Issues.pcNextF (h : Issues xd x w i a s) (isTaken : taken a i = true)
    (even : JalrEven a i) : s.core.pcNextF x = nextPc a i := by
  have redirect := h.pcSrc0.trans isTaken
  have op := congrArg ControlRegE.opE h.holds.control
  have pc := congrArg RegE.pcE h.holds.data
  rw [Core.pcNextF, Core.pcSrcE, redirect, Core.pcSrc1_eq, op]
  change mux3 _ _ _ (BitVec.ofBool (opcode w == 0b1100111) ++ 1#1) = _
  cases i with
  | branch op r1 r2 imm =>
    have immediate : s.core.regE.immExtE = imm := h.holds.immediate h.encodes rfl
    rw [h.encodes.1]
    change s.core.regE.immExtE + s.core.regE.pcE = _
    rw [immediate, pc, nextPc, isTaken, if_pos rfl]
    exact BitVec.add_comm _ _
  | jal d imm =>
    have immediate : s.core.regE.immExtE = imm := h.holds.immediate h.encodes rfl
    rw [h.encodes.1]
    change s.core.regE.immExtE + s.core.regE.pcE = _
    rw [immediate, pc, nextPc]
    exact BitVec.add_comm _ _
  | jalr d r1 imm =>
    have immediate : s.core.regE.immExtE = imm := h.holds.immediate h.encodes rfl
    have target := even d r1 imm rfl
    rw [h.encodes.1]
    change s.core.srcAE + s.core.regE.immExtE = _
    rw [immediate, h.operandA, nextPc, clear_low_bit_iff.mpr target, jalrSum, h.encodes.2.2.2.1]
  | load | store | reg | imm | lui | auipc => cases isTaken

end Effects

end RiscvLab.Pipelined
