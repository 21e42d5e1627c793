import RiscvLab.Lib.Schedule
import RiscvLab.Pipelined.Execute

/-!
# The pipeline simulates the sequential machine

In every cycle the state of the pipeline stands for one state of the sequential
run: the one before the oldest instruction that has not left E. The registers
and the data memory of that state are what the instructions in W and M will
leave behind; the front end is in one of three phases, by the number of cycles
until that instruction is in E.
-/
namespace RiscvLab.Pipelined
open RiscvLab.Lib.ByteMemory RiscvLab.Lib.Run RiscvLab.Lib.Schedule RiscvLab.Hdl RiscvLab.Rv32i

section Schedule

variable (imem : Ram) (init : Arch)

/-- The word that the sequential machine executes. -/
def wordOf (a : Arch) : Word := imem (indexOf a.pc)

def isLoadOrLui : Instr → Bool
  | .load .. | .lui .. => true
  | _ => false

/-- Cycles between an instruction and its successor in E: three if it redirects
the fetch stage, two if it is a load or `lui` and the successor's raw register
fields name its destination, else one. -/
def gap (k : Nat) : Nat :=
  let a := seqRun imem init k
  let w := wordOf imem a
  let w' := wordOf imem (seqRun imem init (k + 1))
  match decode w with
  | some i =>
    if taken a i then 3
    else if isLoadOrLui i && (rs1 w' == rd w || rs2 w' == rd w) then 2
    else 1
  | none => 1

theorem gap_positive (k : Nat) : 1 ≤ gap imem init k := by
  unfold gap
  dsimp only
  split
  · split
    · omega
    · split <;> omega
  · omega

/-- The cycle in which instruction `k` is in E; the first is fetched in cycle 0. -/
def executeCycle (k : Nat) : Nat := issue (gap imem init) 2 k

end Schedule

section Relation

variable (imem : Ram)

/-- D holds the word fetched at `pc`; outside the memory it may be any word. -/
structure Fetched (pc : Word) (d : RegD) : Prop where
  pcD : d.pcD = pc
  pcPlus4D : d.pcPlus4D = pc + 4
  instrD : (indexOf pc).toNat < depth → d.instrD = imem (indexOf pc)

/-- The front end, `wait` cycles before the instruction of `a` is in E. -/
def Front (a : Arch) (s : Core) : Nat → Prop
  | 0 => (∃ xd, s.Holds xd (wordOf imem a) a.pc) ∧ Fetched imem (a.pc + 4) s.regD ∧
      s.pcF = a.pc + 4 + 4 ∧ s.ForwardSafe
  | 1 => s.Bubble ∧ Fetched imem a.pc s.regD ∧ s.pcF = a.pc + 4
  | 2 => s.Bubble ∧ s.regD = .zero ∧ s.pcF = a.pc
  | _ => False

/-- The state of the pipeline stands for the state `a` of the sequential machine. -/
structure Simulates (a : Arch) (wait : Nat) (s : Top) : Prop where
  regs : ∀ x, Regs.ofArray (s.drainedRf x) = a.regs
  mem : ∀ x (index : BitVec 30), index.toNat < depth →
    s.nextDmem x index = wordAt (n := 30) a.mem index
  front : Front imem a s.core wait

/-- What is asked of every instruction that the sequential machine reaches. -/
structure Supported (a : Arch) : Prop where
  aligned : Aligned 4 a.pc
  inside : (indexOf a.pc).toNat < depth
  legal : ∃ i, fetch imem a = some i ∧ isAuipc i = false ∧ DataOk depth a i

end Relation

section Operands

variable {s : Top} {x : Undef}

variable {imem : Ram} {xd : Undef} {w : Word} {i : Instr} {a : Arch}

/-- An instruction in E has the operands that the sequential machine gives it. -/
theorem issues (enc : Encodes w i) (holds : s.core.Holds xd w a.pc) (safe : s.core.ForwardSafe)
    (regs : ∀ x, Regs.ofArray (s.drainedRf x) = a.regs)
    (mem : ∀ x (index : BitVec 30), index.toNat < depth →
      s.nextDmem x index = wordAt (n := 30) a.mem index)
    (noAuipc : isAuipc i = false) (dataOk : DataOk depth a i) : Issues xd x w i a s := by
  have source1 := congrArg RegE.rs1E holds.data
  have source2 := congrArg RegE.rs2E holds.data
  refine ⟨enc, holds, noAuipc, ?_, ?_, mem x, dataOk⟩
  · rw [← regs x, Core.srcAE_drained x (s.readDataM x) safe (holds.read1 enc noAuipc), source1]
    rfl
  · rw [← regs x, Core.writeDataE_drained x (s.readDataM x) safe holds.read2, source2]
    rfl

end Operands

section Bubbles

variable {imem : Ram} {s : Top} {a : Arch} {x x' : Undef}

theorem Core.Bubble.drainedRf (h : s.core.Bubble) :
    (s.clock imem x).drainedRf x' = s.drainedRf x := by
  have idle : (s.clock imem x).core.controlregM.regWriteM = false :=
    congrArg ControlRegE.regWriteE h.control
  rw [Top.drainedRf, Core.drainedRf, idle]
  rfl

theorem Core.Bubble.memWriteM (h : s.core.Bubble) :
    (s.clock imem x).core.controlregM.memWriteM = false :=
  congrArg ControlRegE.memWriteE h.control

theorem Core.Bubble.nextDmem (h : s.core.Bubble) :
    (s.clock imem x).nextDmem x' = s.nextDmem x := by
  rw [Top.nextDmem, h.memWriteM]
  rfl

end Bubbles

section Steps

variable {imem : Ram} {s : Top} {a : Arch} {x : Undef}

/-- Fetching at `pc` puts its word into D. -/
theorem fetched_instrF (pc : Word) (h : s.core.pcF = pc) :
    Fetched imem pc ⟨s.instrF imem x, s.core.pcF, s.core.pcPlus4F⟩ := by
  refine ⟨h, ?_, ?_⟩
  · rw [← h]
    rfl
  · intro inside
    rw [← h] at inside ⊢
    exact if_pos inside

theorem Fetched.eq {pc : Word} {d : RegD} (h : Fetched imem pc d)
    (inside : (indexOf pc).toNat < depth) : d = ⟨imem (indexOf pc), pc, pc + 4⟩ := by
  cases d
  simp only [RegD.mk.injEq]
  exact ⟨h.instrD inside, h.pcD, h.pcPlus4D⟩

/-- Without stall and flush every stage moves on. -/
theorem clock_flows (imem : Ram) (noStall : s.core.lwStallD = false)
    (noJump : s.core.pcSrc0 x = false) (noJalr : s.core.pcSrc1 = false) :
    (s.clock imem x).core.pcF = s.core.pcF + 4 ∧
    (s.clock imem x).core.regD = ⟨s.instrF imem x, s.core.pcF, s.core.pcPlus4F⟩ ∧
    (s.clock imem x).core.controlregE = Core.controlD x s.core.regD.instrD ∧
    (s.clock imem x).core.regE = Core.dataD x s.core.rfNegedge s.core.regD := by
  have source : s.core.pcSrcE x = 0 := by
    rw [Core.pcSrcE, noJalr, noJump]
    rfl
  have enable : s.core.stallF = false := noStall
  have enableD : s.core.stallD = false := noStall
  have flush : s.core.flushD x = false := by rw [Core.flushD_eq, noJump]
  have flushE : s.core.flushE x = false := by rw [Core.flushE_eq, noStall, noJump]; rfl
  refine ⟨?_, ?_, ?_, ?_⟩
  · change flopenr (!s.core.stallF) (s.core.pcNextF x) _ = _
    rw [enable, Core.pcNextF, source]
    rfl
  · change flopenrc _ (s.core.flushD x) (!s.core.stallD) _ _ = _
    rw [enableD, flush]
    rfl
  · change floprc _ (s.core.flushE x) _ = _
    rw [flushE]
    rfl
  · change floprc _ (s.core.flushE x) _ = _
    rw [flushE]
    rfl

/-- A stall holds fetch and decode and sends a bubble into E. -/
theorem clock_stalls (imem : Ram) (x : Undef) (stall : s.core.lwStallD = true) :
    (s.clock imem x).core.pcF = s.core.pcF ∧ (s.clock imem x).core.regD = s.core.regD ∧
    (s.clock imem x).core.Bubble := by
  have enable : s.core.stallF = true := stall
  have enableD : s.core.stallD = true := stall
  have flushE : s.core.flushE x = true := by rw [Core.flushE_eq, stall, Bool.true_or]
  refine ⟨?_, ?_, Core.clock_bubble x _ _ _ flushE⟩
  · change flopenr (!s.core.stallF) _ _ = _
    rw [enable]
    rfl
  · change flopenrc _ _ (!s.core.stallD) _ _ = _
    rw [enableD]
    rfl

/-- A redirection empties D and E and fetches at the target. -/
theorem clock_jumps (imem : Ram) (noStall : s.core.lwStallD = false)
    (jump : s.core.pcSrc0 x = true) :
    (s.clock imem x).core.pcF = s.core.pcNextF x ∧ (s.clock imem x).core.regD = .zero ∧
    (s.clock imem x).core.Bubble := by
  have enable : s.core.stallF = false := noStall
  have enableD : s.core.stallD = false := noStall
  have flush : s.core.flushD x = true := by rw [Core.flushD_eq, jump]
  have flushE : s.core.flushE x = true := by rw [Core.flushE_eq, jump, Bool.or_true]
  refine ⟨?_, ?_, Core.clock_bubble x _ _ _ flushE⟩
  · change flopenr (!s.core.stallF) (s.core.pcNextF x) _ = _
    rw [enable]
    rfl
  · change flopenrc _ (s.core.flushD x) (!s.core.stallD) _ _ = _
    rw [enableD, flush]
    rfl

end Steps

section Leaving

variable {imem : Ram} {xd x : Undef} {w : Word} {i : Instr} {a : Arch} {s : Top}

/-- The drained registers after the instruction has left E. -/
theorem Issues.drainedRf (h : Issues xd x w i a s)
    (regs : ∀ x, Regs.ofArray (s.drainedRf x) = a.regs) (x' : Undef) :
    Regs.ofArray ((s.clock imem x).drainedRf x') = (execute a i).regs := by
  have result := h.regResult imem x'
  rw [Top.drainedRf, Core.drainedRf, Top.clock_rfNegedge, execute, ← result]
  cases (s.clock imem x).core.controlregM.regWriteM with
  | false => exact regs x
  | true => rw [ofArray_regWrite, regs x]; rfl

theorem resultSrc_low (i : Instr) : (decoded i).resultSrc.getLsbD 0 = isLoadOrLui i := by
  cases i <;> simp [decoded, isLoadOrLui]

theorem Issues.lwStallD (h : Issues xd x w i a s) : s.core.lwStallD =
    (isLoadOrLui i && (rs1 s.core.regD.instrD == rd w || rs2 s.core.regD.instrD == rd w)) := by
  have source : s.core.controlregE.resultSrcE = _ :=
    congrArg Decoded.resultSrc (h.holds.decoded h.encodes)
  have dest := congrArg RegE.rdE h.holds.data
  rw [Core.lwStallD, source, resultSrc_low, dest]
  rfl

theorem Issues.pcSrc1 (h : Issues xd x w i a s) (straight : taken a i = false) :
    s.core.pcSrc1 = false := by
  have op := congrArg ControlRegE.opE h.holds.control
  rw [Core.pcSrc1_eq, op]
  change (opcode w == 0b1100111) = false
  cases i with
  | jalr => cases straight
  | load | store | reg | imm | branch | jal | lui | auipc => rw [h.encodes.1]; rfl

theorem nextPc_straight (straight : taken a i = false) : nextPc a i = a.pc + 4 := by
  cases i with
  | branch => rw [nextPc, straight]; rfl
  | jal | jalr => cases straight
  | load | store | reg | imm | lui | auipc => rfl

end Leaving

section Phases

variable {imem : Ram} {x : Undef} {a : Arch} {s : Top}

theorem Simulates.decode (h : Simulates imem a 2 s) : Simulates imem a 1 (s.clock imem x) := by
  obtain ⟨bubble, empty, pc⟩ := h.front
  obtain ⟨pcF, regD, control, data⟩ :=
    clock_flows imem bubble.lwStallD (bubble.pcSrc0 (x := x)) bubble.pcSrc1
  rw [empty] at control data
  refine ⟨fun x' => ?_, fun x' index inside => ?_, ⟨?_, ?_⟩, ?_, ?_⟩
  · rw [bubble.drainedRf]
    exact h.regs x
  · rw [bubble.nextDmem]
    exact h.mem x index inside
  · exact control.trans (Core.decode_zero x s.core.rfNegedge).1
  · exact data.trans (Core.decode_zero x s.core.rfNegedge).2
  · rw [regD]
    exact fetched_instrF a.pc pc
  · rw [pcF, pc]

theorem Simulates.execute (h : Simulates imem a 1 s) (inside : (indexOf a.pc).toNat < depth) :
    Simulates imem a 0 (s.clock imem x) := by
  obtain ⟨bubble, fetched, pc⟩ := h.front
  obtain ⟨pcF, regD, control, data⟩ :=
    clock_flows imem bubble.lwStallD (bubble.pcSrc0 (x := x)) bubble.pcSrc1
  rw [fetched.eq inside] at control data
  refine ⟨fun x' => ?_, fun x' index inside => ?_, ⟨x, control, data⟩, ?_, ?_, ?_⟩
  · rw [bubble.drainedRf]
    exact h.regs x
  · rw [bubble.nextDmem]
    exact h.mem x index inside
  · rw [regD]
    exact fetched_instrF (a.pc + 4) pc
  · rw [pcF, pc]
  · exact Core.Contents.forwardSafe (.inl bubble) x _ _ _

/-- The three ways in which an instruction leaves E. -/
theorem Simulates.leave (h : Simulates imem a 0 s) {xd : Undef} {i : Instr}
    (issues : Issues xd x (wordOf imem a) i a s) (even : JalrEven a i)
    (insideNext : (indexOf (nextPc a i)).toNat < depth) :
    Simulates imem (Rv32i.execute a i)
      (if taken a i then 2
        else if isLoadOrLui i && (rs1 (wordOf imem (Rv32i.execute a i)) == rd (wordOf imem a) ||
          rs2 (wordOf imem (Rv32i.execute a i)) == rd (wordOf imem a)) then 1
        else 0) (s.clock imem x) := by
  obtain ⟨-, fetched, pc, -⟩ := h.front
  have jump := issues.pcSrc0
  have stall := issues.lwStallD
  have contents : s.core.Contents := .inr ⟨xd, _, _, i, issues.encodes, issues.holds⟩
  refine ⟨issues.drainedRf h.regs, fun x' index inside => issues.nextDmem index inside, ?_⟩
  cases way : taken a i with
  | true =>
    have noStall : s.core.lwStallD = false := by
      rw [stall]
      cases i <;> first | rfl | cases way
    obtain ⟨pcF, regD, bubble⟩ := clock_jumps imem noStall (jump.trans way)
    exact ⟨bubble, regD, pcF.trans (issues.pcNextF way even)⟩
  | false =>
    have straight := nextPc_straight way
    have nextPc : (Rv32i.execute a i).pc = a.pc + 4 := straight
    have successor : s.core.regD.instrD = wordOf imem (Rv32i.execute a i) := by
      rw [straight] at insideNext
      rw [fetched.instrD insideNext, wordOf, nextPc]
    rw [successor] at stall
    rw [if_neg Bool.false_ne_true, ← stall]
    cases held : s.core.lwStallD with
    | true =>
      obtain ⟨pcF, regD, bubble⟩ := clock_stalls imem x held
      refine ⟨bubble, ?_, ?_⟩
      · rw [regD, nextPc]
        exact fetched
      · rw [pcF, pc, nextPc]
    | false =>
      obtain ⟨pcF, regD, control, data⟩ :=
        clock_flows imem held (jump.trans way) (issues.pcSrc1 way)
      rw [straight] at insideNext
      rw [fetched.eq insideNext] at control data
      refine ⟨⟨x, ?_, ?_⟩, ?_, ?_, contents.forwardSafe x _ _ _⟩
      · rw [wordOf, nextPc]
        exact control
      · rw [wordOf, nextPc]
        exact data
      · rw [regD, nextPc]
        exact fetched_instrF (a.pc + 4 + 4) pc
      · rw [pcF, pc, nextPc]

end Phases

end RiscvLab.Pipelined
