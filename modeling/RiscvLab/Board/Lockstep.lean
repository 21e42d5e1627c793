import RiscvLab.Board.Controller
import RiscvLab.Pipelined.Agreement

/-!
# The two pipelined cores without memory instructions

On a program without loads and stores `MemControl` never starts a transaction.
The board's core then differs from the simulated one only in its PC register,
which it loads in stall cycles as well.
-/
namespace RiscvLab.Board
open RiscvLab.Lib.ByteMemory RiscvLab.Lib.Run RiscvLab.Hdl RiscvLab.Pipelined

/-- What the `x` of the simulated core happen to be, and the words it reads from
its data memory; neither need be those of the board. -/
structure SimInput where
  undef : Undef
  readDataM : Word
  deriving Inhabited

/-- The simulated core on the same program. -/
def simClock (imem : Ram) (input : SimInput) (s : Core) : Core :=
  s.clock input.undef (!s.stallF) (imem (wordIndex s.pcF)) input.readDataM

def simRun (imem : Ram) (input : Nat → SimInput) (rf : RegArray) : Nat → Core :=
  run (simClock imem) input (.reset rf)

/-- Both cores resolve every `x` alike and read the same words. -/
def SameInputs (input : Nat → Input) (sim : Nat → SimInput) : Prop :=
  ∀ n, sim n = ⟨(input n).undef, (input n).readDataM⟩

/-- No word of the program has the opcode of a load or a store. -/
def NoMemory (imem : Ram) : Prop :=
  ∀ index, (imem index).extractLsb' 0 7 ≠ 0b0000011 ∧ (imem index).extractLsb' 0 7 ≠ 0b0100011

/-- No strobe is on its way to M and `MemControl` is idle. -/
structure Quiet (s : Top) : Prop where
  strobeD : s.memStrobeD = false
  strobeE : s.memStrobeE = false
  strobeM : s.memStrobeM = false
  idle : s.memControl = .idle

section Step

variable {imem : Ram} {input : Input} {s : Top}

theorem Quiet.memControlNegedge (h : Quiet s) : s.memControlNegedge input = .idle := by
  rw [Top.memControlNegedge, h.idle, h.strobeM]
  rfl

theorem Quiet.pcReady (h : Quiet s) : s.pcReady input = true := by
  rw [Top.pcReady, h.memControlNegedge]
  rfl

theorem memStrobeD_eq_false {s : Top} (h : s.core.opD ≠ 0b0000011 ∧ s.core.opD ≠ 0b0100011) :
    s.memStrobeD = false := by
  rw [Top.memStrobeD, Bool.or_eq_false_iff, beq_eq_false_iff_ne, beq_eq_false_iff_ne]
  exact h

theorem Quiet.clock (program : NoMemory imem) (h : Quiet s) : Quiet (s.clock imem input) := by
  refine ⟨?_, ?_, h.strobeE, h.memControlNegedge⟩
  · rcases Core.clock_regD input.undef (!s.core.stallF || s.pcReady input) (s.instrF imem)
      input.readDataM (s := s.core) with kept | empty | fetched
    · rw [Top.memStrobeD, Core.opD]
      exact kept ▸ h.strobeD
    · apply memStrobeD_eq_false
      rw [Core.opD]
      exact empty ▸ (by decide : RegD.zero.instrD.extractLsb' 0 7 ≠ 0b0000011 ∧
        RegD.zero.instrD.extractLsb' 0 7 ≠ 0b0100011)
    · apply memStrobeD_eq_false
      rw [Core.opD]
      exact fetched ▸ program (wordIndex s.core.pcF)
  · change floprc false (s.core.flushE input.undef) s.memStrobeD = false
    rw [h.strobeD]
    cases s.core.flushE input.undef <;> rfl

/-- While all is quiet the board's core loads its PC register in every cycle. -/
theorem Quiet.clock_core (h : Quiet s) : (s.clock imem input).core =
    s.core.clock input.undef true (s.instrF imem) input.readDataM := by
  rw [Top.clock, h.pcReady, Bool.or_true]

end Step

/-- A PC register that loads in every cycle and one that a stall holds. -/
theorem held_iff {stall : Bool} {next pc : Word} :
    next = flopenr (!stall) next pc ↔ (stall = true → next = pc) := by
  cases stall with
  | true => exact ⟨fun same _ => same, fun same => same rfl⟩
  | false => exact iff_of_true rfl (fun stalled => by cases stalled)

section Step

variable {imem : Ram} {input : Input} {sim : SimInput} {s : Top} {t : Core}

/-- Cores in the same state part exactly when a stall should have held the PC. -/
theorem Quiet.clock_eq (h : Quiet s) (same : s.core = t)
    (alike : sim = ⟨input.undef, input.readDataM⟩) :
    ((s.clock imem input).core.pcF = (simClock imem sim t).pcF ↔
      (t.stallF = true → t.pcNextF sim.undef = t.pcF)) ∧
    ((t.stallF = true → t.pcNextF sim.undef = t.pcF) →
      (s.clock imem input).core = simClock imem sim t) := by
  subst same alike
  rw [h.clock_core]
  have next : (s.core.stallF = true → s.core.pcNextF input.undef = s.core.pcF) →
      s.core.pcNextF input.undef =
        flopenr (!s.core.stallF) (s.core.pcNextF input.undef) s.core.pcF := held_iff.mpr
  refine ⟨held_iff, fun held => ?_⟩
  exact congrArg (fun pcF => { simClock imem ⟨input.undef, input.readDataM⟩ s.core with pcF })
    (next held)

/-- So do cores that only agree, on specified words. -/
theorem Quiet.clock_agrees (h : Quiet s) (same : Agrees s.core t)
    (specified : Specified s.core.regD.instrD) (input : Input) (sim : SimInput) :
    ((s.clock imem input).core.pcF = (simClock imem sim t).pcF ↔
      (t.stallF = true → t.pcNextF sim.undef = t.pcF)) ∧
    ((t.stallF = true → t.pcNextF sim.undef = t.pcF) →
      Agrees (s.clock imem input).core (simClock imem sim t)) := by
  have fetched : s.instrF imem = imem (wordIndex t.pcF) := by rw [Top.instrF, same.pcF]
  have pc : (s.clock imem input).core.pcF = (simClock imem sim t).pcF ↔
      (t.stallF = true → t.pcNextF sim.undef = t.pcF) := by
    rw [h.clock_core]
    change s.core.pcNextF input.undef = flopenr (!t.stallF) (t.pcNextF sim.undef) t.pcF ↔ _
    rw [same.pcNextF input.undef sim.undef]
    exact held_iff
  refine ⟨pc, fun held => ?_⟩
  have next := pc.mpr held
  rw [h.clock_core, fetched] at next ⊢
  exact same.clock specified input.undef sim.undef _ _ _ next

end Step

section Run

variable {imem : Ram} {input : Nat → Input} {sim : Nat → SimInput} {rf : RegArray}

/-- On a program without memory instructions the board's core has the PC and the
registers of the simulated one in every cycle if and only if no stall of the
simulated core holds a PC that would have moved. The two may differ in their `x`
and in the words they read unless the program has opcodes that are not in the
table of the decoder. -/
theorem board_lockstep_iff (imem : Ram) (input : Nat → Input) (sim : Nat → SimInput) (rf : RegArray)
    (program : NoMemory imem)
    (inputs : (∀ index, Specified (imem index)) ∨ SameInputs input sim) :
    (∀ n, (topRun imem input rf n).core.pcF = (simRun imem sim rf n).pcF ∧
      (topRun imem input rf n).core.rf = (simRun imem sim rf n).rf) ↔
    ∀ n, (simRun imem sim rf n).stallF = true →
      (simRun imem sim rf n).pcNextF (sim n).undef = (simRun imem sim rf n).pcF := by
  have quiet : Quiet (Top.reset rf) := ⟨rfl, rfl, rfl, rfl⟩
  rcases inputs with specified | alike
  · refine run_agree_iff (fun (s : Top) t => Quiet s ∧ Agrees s.core t ∧
      Specified s.core.regD.instrD) (fun s t => s.core.pcF = t.pcF ∧ s.core.rf = t.rf) _
      ⟨quiet, .reset rf, (by decide : Specified RegD.zero.instrD)⟩
      (fun s t h => ⟨h.2.1.pcF, h.2.1.rf⟩) (fun n h next => ?_) (fun n h held => ?_)
    · exact (h.1.clock_agrees h.2.1 h.2.2 (input n) (sim n)).1.mp next.1
    · refine ⟨h.1.clock program, (h.1.clock_agrees h.2.1 h.2.2 (input n) (sim n)).2 held, ?_⟩
      change Specified ((run (Top.clock imem) input (Top.reset rf) n).clock imem
        (input n)).core.regD.instrD
      rw [h.1.clock_core]
      exact specified_clock h.2.2 _ _ (specified _) _
  · refine run_agree_iff (fun (s : Top) t => Quiet s ∧ s.core = t)
      (fun s t => s.core.pcF = t.pcF ∧ s.core.rf = t.rf) _ ⟨quiet, rfl⟩
      (fun s t h => ⟨congrArg Core.pcF h.2, congrArg Core.rf h.2⟩) (fun n h next => ?_)
      (fun n h held => ⟨h.1.clock program, (h.1.clock_eq h.2 (alike n)).2 held⟩)
    exact (h.1.clock_eq h.2 (alike n)).1.mp next.1

/-- `lui`, then an instruction whose register fields name its destination. -/
def luiProgram : Ram := fun index =>
  match index.toNat with
  | 0 => 0x000010b7 -- lui x1, 1
  | 1 => 0x00108113 -- addi x2, x1, 1
  | 2 => 0x00500193 -- addi x3, x0, 5
  | _ => 0x00000013 -- addi x0, x0, 0

theorem luiProgram_noMemory : NoMemory luiProgram := by
  intro index
  rw [luiProgram]
  split <;> decide

theorem luiProgram_specified (index : BitVec 30) : Specified (luiProgram index) := by
  rw [luiProgram]
  split <;> decide

/-- The data words that the simulated core reads differ from those of the board. -/
theorem board_lockstep_iff_lui :
    (∀ n, (topRun luiProgram (fun _ => default) (fun _ => 0) n).core.pcF =
        (simRun luiProgram (fun _ => ⟨default, 1⟩) (fun _ => 0) n).pcF ∧
      (topRun luiProgram (fun _ => default) (fun _ => 0) n).core.rf =
        (simRun luiProgram (fun _ => ⟨default, 1⟩) (fun _ => 0) n).rf) ↔
    ∀ n, (simRun luiProgram (fun _ => ⟨default, 1⟩) (fun _ => 0) n).stallF = true →
      (simRun luiProgram (fun _ => ⟨default, 1⟩) (fun _ => 0) n).pcNextF default =
        (simRun luiProgram (fun _ => ⟨default, 1⟩) (fun _ => 0) n).pcF :=
  board_lockstep_iff luiProgram (fun _ => default) (fun _ => ⟨default, 1⟩) (fun _ => 0)
    luiProgram_noMemory (.inl luiProgram_specified)

/-- The board's core skips `addi x3, x0, 5`, which was being fetched when `lui` stalled
its successor. -/
theorem board_not_lockstep : NoMemory luiProgram ∧
    (topRun luiProgram (fun _ => default) (fun _ => 0) 3).core.pcF ≠
      (simRun luiProgram (fun _ => default) (fun _ => 0) 3).pcF ∧
    (topRun luiProgram (fun _ => default) (fun _ => 0) 9).core.rf 3 = 0 ∧
    (simRun luiProgram (fun _ => default) (fun _ => 0) 9).rf 3 = 5 := by
  refine ⟨luiProgram_noMemory, ?_, ?_, ?_⟩ <;> decide +kernel

end Run

end RiscvLab.Board
