import RiscvLab.Board.Controller
import RiscvLab.Pipelined.Commit

/-!
# Precise states of the pipelined board

While no load or store is executed and no instruction stalls its successor, the board's
pipeline is that of the simulated core: up to the first instruction that accesses the
memory its registers are those of the sequential machine, whatever the bus does and
whatever stands in the memory behind the program.
-/
namespace RiscvLab.Pipelined.Core
open RiscvLab.Lib.ByteMemory RiscvLab.Hdl RiscvLab.Pipelined

/-- The core with another word in the data field of its W register. -/
def withDataW (s : Core) (word : Word) : Core :=
  { s with regW := { s.regW with dataW := word } }

section Signals

variable {s : Core} {word : Word} {x : Undef}

/-- W selects its data for loads only. -/
theorem withDataW_resultW (noLoad : s.regW.resultSrcW ≠ 0b01) :
    (s.withDataW word).resultW = s.resultW := by
  have sources : ∀ source : BitVec 2, source ≠ 0b01 →
      source = 0b00 ∨ source = 0b10 ∨ source = 0b11 := by decide
  have same : (s.withDataW word).regW.resultSrcW = s.regW.resultSrcW := rfl
  rw [resultW, resultW, same]
  rcases sources _ noLoad with source | source | source <;> rw [source] <;> rfl

theorem withDataW_rfNegedge (noLoad : s.regW.resultSrcW ≠ 0b01) :
    (s.withDataW word).rfNegedge = s.rfNegedge := by
  rw [rfNegedge, withDataW_resultW noLoad]
  rfl

theorem withDataW_srcAE (noLoad : s.regW.resultSrcW ≠ 0b01) :
    (s.withDataW word).srcAE = s.srcAE := by
  rw [srcAE, withDataW_resultW noLoad]
  rfl

theorem withDataW_writeDataE (noLoad : s.regW.resultSrcW ≠ 0b01) :
    (s.withDataW word).writeDataE = s.writeDataE := by
  rw [writeDataE, withDataW_resultW noLoad]
  rfl

theorem withDataW_aluE (noLoad : s.regW.resultSrcW ≠ 0b01) :
    (s.withDataW word).aluE x = s.aluE x := by
  rw [aluE, srcBE, withDataW_srcAE noLoad, withDataW_writeDataE noLoad]
  rfl

theorem withDataW_pcSrcE (noLoad : s.regW.resultSrcW ≠ 0b01) :
    (s.withDataW word).pcSrcE x = s.pcSrcE x := by
  rw [pcSrcE, pcSrc0, withDataW_aluE noLoad]
  rfl

theorem withDataW_pcNextF (noLoad : s.regW.resultSrcW ≠ 0b01) :
    (s.withDataW word).pcNextF x = s.pcNextF x := by
  rw [pcNextF, withDataW_pcSrcE noLoad, jalrTarget, withDataW_srcAE noLoad]
  rfl

/-- The data field has no effect but on the data field. -/
theorem withDataW_clock (noLoad : s.regW.resultSrcW ≠ 0b01) (x : Undef) (pcEnable : Bool)
    (instrF readDataM readDataM' : Word) :
    (s.withDataW word).clock x pcEnable instrF readDataM =
      (s.clock x pcEnable instrF readDataM').withDataW (s.dataM x readDataM) := by
  have flushD : (s.withDataW word).flushD x = s.flushD x :=
    congrArg (fun source : BitVec 2 => source.getLsbD 0) (withDataW_pcSrcE noLoad)
  have flushE : (s.withDataW word).flushE x = s.flushE x :=
    congrArg (fun source : BitVec 2 => s.lwStallD || source.getLsbD 0) (withDataW_pcSrcE noLoad)
  unfold clock
  rw [withDataW_pcNextF noLoad, withDataW_rfNegedge noLoad, withDataW_aluE noLoad,
    withDataW_writeDataE noLoad, flushD, flushE]
  rfl

end Signals

end RiscvLab.Pipelined.Core

namespace RiscvLab.Board
open RiscvLab.Lib.ByteMemory RiscvLab.Lib.Run RiscvLab.Lib.Schedule RiscvLab.Hdl RiscvLab.Rv32i
  RiscvLab.Pipelined

/-- The opcodes on which `MemStrobe` is raised. -/
def strobes (op : BitVec 7) : Bool := op == 0b0000011 || op == 0b0100011

/-- The board's registers and those of a simulated core that differs from it in the word
last read from memory only. -/
structure Follows (s : Top) (t : Core) : Prop where
  core : ∃ word, s.core = t.withDataW word
  noLoadM : t.controlregM.resultSrcM ≠ 0b01
  noLoadW : t.regW.resultSrcW ≠ 0b01
  strobeE : s.memStrobeE = strobes t.controlregE.opE
  strobeM : s.memStrobeM = false
  idle : s.memControl = .idle

/-- What E holds can be left to the simulated core. -/
structure Calm (t : Core) : Prop where
  noStall : t.lwStallD = false
  noLoad : t.controlregE.resultSrcE ≠ 0b01
  noStrobe : strobes t.controlregE.opE = false

section Step

variable {imem : Ram} {input : Input} {s : Top} {t : Core} {x : Undef}

theorem Follows.memControlNegedge (h : Follows s t) : s.memControlNegedge input = .idle := by
  rw [Top.memControlNegedge, h.idle, h.strobeM]
  rfl

theorem Follows.pcReady (h : Follows s t) : s.pcReady input = true := by
  rw [Top.pcReady, h.memControlNegedge]
  rfl

theorem Follows.pcF (h : Follows s t) : s.core.pcF = t.pcF := by
  obtain ⟨word, same⟩ := h.core
  rw [same]
  rfl

theorem Follows.clock (h : Follows s t) (calm : Calm t) (imem : Ram) (input : Input)
    (readDataM : Word) :
    Follows (s.clock imem input)
      (t.clock input.undef (!t.stallF) (imem (wordIndex t.pcF)) readDataM) := by
  obtain ⟨word, same⟩ := h.core
  have enable : (!s.core.stallF || s.pcReady input) = !t.stallF := by
    have flows : t.stallF = false := calm.noStall
    rw [h.pcReady, flows, Bool.or_true]
    rfl
  have next : (s.clock imem input).core =
      s.core.clock input.undef (!s.core.stallF || s.pcReady input) (s.instrF imem)
        input.readDataM := rfl
  refine ⟨⟨t.dataM input.undef input.readDataM, ?_⟩, calm.noLoad, h.noLoadM, ?_, ?_,
    h.memControlNegedge⟩
  · rw [next, enable, Top.instrF, h.pcF, same]
    exact Core.withDataW_clock h.noLoadW _ _ _ _ _
  · have flush : s.core.flushE input.undef = t.flushE input.undef := by
      rw [same, Core.flushE, Core.flushE, Core.withDataW_pcSrcE h.noLoadW]
      rfl
    have strobeD : s.memStrobeD = strobes t.opD := by
      rw [Top.memStrobeD, same]
      rfl
    change floprc false (s.core.flushE input.undef) s.memStrobeD =
      strobes (floprc ControlRegE.zero (t.flushE input.undef)
        (Core.controlD input.undef t.regD.instrD)).opE
    rw [flush, strobeD]
    cases t.flushE input.undef <;> rfl
  · change s.memStrobeE = false
    rw [h.strobeE, calm.noStrobe]

theorem follows_reset (rf : RegArray) : Follows (Top.reset rf) (Core.reset rf) :=
  ⟨⟨0, rfl⟩, (by decide : (0 : BitVec 2) ≠ 0b01), (by decide : (0 : BitVec 2) ≠ 0b01), rfl, rfl,
    rfl⟩

/-- The registers once M has written back, whatever it reads. -/
theorem Follows.clock_rfNegedge (h : Follows s t) (readDataM : Word) :
    (s.clock imem input).core.rfNegedge = t.drainedRf x readDataM := by
  obtain ⟨word, same⟩ := h.core
  have sources : ∀ source : BitVec 2, source ≠ 0b01 →
      source = 0b00 ∨ source = 0b10 ∨ source = 0b11 := by decide
  have result : s.core.resultM input.undef input.readDataM = t.resultM x readDataM := by
    rw [same, Core.resultM, Core.resultM]
    change mux4 t.regM.aluResultM _ t.regM.pcPlus4M t.regM.immExtM t.controlregM.resultSrcM = _
    rcases sources _ h.noLoadM with source | source | source <;> rw [source] <;> rfl
  change regWrite s.core.rfNegedge s.core.controlregM.regWriteM s.core.regM.rdM
    (s.core.resultM input.undef input.readDataM) = _
  rw [result, same, Core.withDataW_rfNegedge h.noLoadW]
  rfl

end Step

/-- The first `K` instructions do not access the memory, and none of them stalls the
instruction behind it. -/
structure CalmTo (imem : Ram) (init : Arch) (K : Nat) : Prop where
  noAccess : ∀ k < K, ∀ i, fetch imem (seqRun imem init k) = some i →
    access (seqRun imem init k) i = none
  noStall : ∀ k < K, gap imem init k ≠ 2

section Calm

variable {imem : Ram} {init a : Arch} {xd x : Undef} {w : Word} {i : Instr} {s : Pipelined.Top}
  {K : Nat}

theorem calm_of_bubble (bubble : s.core.Bubble) : Calm s.core := by
  refine ⟨bubble.lwStallD, ?_, ?_⟩
  · rw [bubble.control]
    decide
  · rw [bubble.control]
    rfl

theorem Issues.resultSrcE (h : Issues xd x w i a s) (noAccess : access a i = none) :
    s.core.controlregE.resultSrcE ≠ 0b01 := by
  have source : s.core.controlregE.resultSrcE = (decoded i).resultSrc :=
    congrArg Decoded.resultSrc (h.holds.decoded h.encodes)
  rw [source]
  cases i with
  | load => cases noAccess
  | store | reg | imm | branch | jal | jalr | lui | auipc => simp [decoded]

theorem Issues.noStrobe (h : Issues xd x w i a s) (noAccess : access a i = none) :
    strobes s.core.controlregE.opE = false := by
  have op : s.core.controlregE.opE = opcode w := congrArg ControlRegE.opE h.holds.control
  rw [op]
  cases i with
  | load | store => cases noAccess
  | reg | imm | branch | jal | jalr | lui | auipc => rw [h.encodes.1]; rfl

/-- In each cycle before instruction `K` is in E, what E holds is calm. -/
theorem calm_of_simulates (supported : SupportedTo imem init K) (calm : CalmTo imem init K)
    {slot : Slot} (h : Simulates imem (seqRun imem init slot.index) slot.wait s)
    (open' : slot.index < K ∨ slot.index = K ∧ slot.wait ≠ 0) : Calm s.core := by
  obtain ⟨k, wait⟩ := slot
  match wait with
  | 0 =>
    have before : k < K := by
      rcases open' with before | ⟨-, waits⟩
      · exact before
      · exact absurd rfl waits
    obtain ⟨xd, i, legal, issues⟩ := h.issues (x := default) (supported.before k before)
    have noAccess := calm.noAccess k before i legal
    refine ⟨?_, Issues.resultSrcE issues noAccess, Issues.noStrobe issues noAccess⟩
    have stall := issues.lwStallD
    have gapped := calm.noStall k before
    rw [gap_eq legal] at gapped
    cases way : Rv32i.taken (seqRun imem init k) i with
    | true =>
      rw [stall]
      cases i with
      | load | lui => cases way
      | store | reg | imm | branch | jal | jalr | auipc => rfl
    | false =>
      have pc : (seqRun imem init (k + 1)).pc = (seqRun imem init k).pc + 4 := by
        rw [seqRun_succ legal]
        exact nextPc_straight way
      have inside := supported.inside_of_le (Nat.succ_le_of_lt before)
      obtain ⟨-, fetched, -, -⟩ := h.front
      have successor : s.core.regD.instrD = wordOf imem (seqRun imem init (k + 1)) := by
        rw [pc] at inside
        rw [fetched.instrD inside, wordOf, pc]
      rw [successor] at stall
      rw [way, if_neg Bool.false_ne_true, ← stall] at gapped
      cases held : s.core.lwStallD with
      | true =>
        rw [held] at gapped
        exact absurd rfl gapped
      | false => rfl
  | 1 | 2 => exact calm_of_bubble h.front.1
  | _ + 3 => exact h.front.elim

end Calm

section Run

variable {imem : Ram} {rf : RegArray} {dmem : Ram} {K : Nat}

/-- The `x` of the board, with the words that it reads where the simulated memory has none. -/
def simUndef (imem : Ram) (input : Nat → Input) (rf : RegArray) (n : Nat) : Undef :=
  { (input n).undef with instr := (topRun imem input rf n).instrF imem }

theorem topRun_follows (supported : SupportedTo imem (seqInit rf dmem) K)
    (calm : CalmTo imem (seqInit rf dmem) K) (input : Nat → Input) (n : Nat)
    (within : n ≤ executeCycle imem (seqInit rf dmem) K) :
    Follows (topRun imem input rf n)
      (Pipelined.topRun imem (simUndef imem input rf) rf dmem n).core := by
  induction n with
  | zero => exact follows_reset rf
  | succ n ih =>
    have earlier := ih (Nat.le_of_succ_le within)
    have simulates := topRun_simulates supported (simUndef imem input rf) n
      (Nat.le_of_succ_le within)
    have here := calm_of_simulates supported calm simulates
      (slotAt_open 2 (gap_positive imem (seqInit rf dmem)) within)
    have fetched : (Pipelined.topRun imem (simUndef imem input rf) rf dmem n).instrF imem
        (simUndef imem input rf n) =
        imem (wordIndex (Pipelined.topRun imem (simUndef imem input rf) rf dmem n).core.pcF) := by
      have outside : (simUndef imem input rf n).instr =
          imem (wordIndex (topRun imem input rf n).core.pcF) := rfl
      rw [Pipelined.Top.instrF, ramRead, outside, earlier.pcF]
      exact ite_self _
    have step := earlier.clock here imem (input n)
      ((Pipelined.topRun imem (simUndef imem input rf) rf dmem n).readDataM
        (simUndef imem input rf n))
    rw [← fetched] at step
    exact step

/-- What the board holds when instruction `K` is in E. -/
theorem board_commits (supported : SupportedTo imem (seqInit rf dmem) K)
    (calm : CalmTo imem (seqInit rf dmem) K) (input : Nat → Input) :
    (∃ xd, (topRun imem input rf (executeCycle imem (seqInit rf dmem) K)).core.Holds xd
      (wordOf imem (seqRun imem (seqInit rf dmem) K)) (seqRun imem (seqInit rf dmem) K).pc) ∧
    ∀ r, regRead (topRun imem input rf
        (executeCycle imem (seqInit rf dmem) K + 1)).core.rfNegedge r =
      (seqRun imem (seqInit rf dmem) K).regs.get r := by
  have simulates := executeCycle_simulates supported (simUndef imem input rf)
  have follows := topRun_follows supported calm input _ (Nat.le_refl _)
  refine ⟨?_, fun r => ?_⟩
  · obtain ⟨word, same⟩ := follows.core
    obtain ⟨⟨xd, holds⟩, -⟩ := simulates.front
    rw [same]
    exact ⟨xd, holds.control, holds.data⟩
  · rw [regRead_eq, ← simulates.regs (simUndef imem input rf 0)]
    exact congrArg (fun array => (Regs.ofArray array).get r) (follows.clock_rfNegedge _)

/-- Up to the first access to the memory the board is precise. In the cycle in which
instruction `K` is in E no transaction has been started, and one cycle later the registers
are those of the sequential machine after `K` instructions. -/
theorem board_precise (supported : SupportedTo imem (seqInit rf dmem) K)
    (calm : CalmTo imem (seqInit rf dmem) K) (input : Nat → Input) :
    (∃ xd, (topRun imem input rf (executeCycle imem (seqInit rf dmem) K)).core.Holds xd
      (wordOf imem (seqRun imem (seqInit rf dmem) K)) (seqRun imem (seqInit rf dmem) K).pc) ∧
    (∀ r, regRead (topRun imem input rf
        (executeCycle imem (seqInit rf dmem) K + 1)).core.rfNegedge r =
      (seqRun imem (seqInit rf dmem) K).regs.get r) ∧
    ∀ n ≤ executeCycle imem (seqInit rf dmem) K,
      (topRun imem input rf n).memControlNegedge (input n) = .idle := by
  obtain ⟨holds, regs⟩ := board_commits supported calm input
  refine ⟨holds, regs, fun n within => ?_⟩
  exact (topRun_follows supported calm input n within).memControlNegedge

/-- The jumps of `jalrProgram` and the instructions between them. -/
theorem board_precise_even :
    regRead (topRun (jalrProgram false) (fun _ => default) (fun _ => 0)
      (executeCycle (jalrProgram false) zeroInit 4 + 1)).core.rfNegedge =
    (seqRun (jalrProgram false) zeroInit 4).regs.get := by
  refine funext (board_precise ((jalrProgram_supported false).to jalrProgram_even 4)
    ⟨fun k before i here => ?_, by decide +kernel⟩ _).2.1
  have legal := jalrProgram_legal false k (by omega)
  change fetch (jalrProgram false) (seqRun (jalrProgram false) zeroInit k) = some i at here
  cases legal.symm.trans here
  match k, before with
  | 0, _ | 1, _ | 2, _ | 3, _ => rfl

end Run

end RiscvLab.Board
