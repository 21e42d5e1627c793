import RiscvLab.Board.Controller
import RiscvLab.Lib.Windows
import RiscvLab.Pipelined.Contents

/-!
# Memory transactions of the board

A load or store is in M for one cycle, and `MemControl` sees it only when it is
idle in that cycle. From then on the pipeline moves on while the transaction is
open, so the address and the store word are kept only if what follows into M
presents the same ones.
-/
namespace RiscvLab.Board
open RiscvLab.Lib.ByteMemory RiscvLab.Lib.Run RiscvLab.Lib.Windows RiscvLab.Hdl RiscvLab.Rv32i
open RiscvLab.Pipelined

namespace Top

variable (input : Input) (s : Top)

/-- `AXIStart` rises on the falling edge of the cycle. -/
def starts : Bool := (s.memControlNegedge input).axiStart

/-- `doneM` acknowledges the open transaction on the falling edge of the cycle. -/
def acknowledged : Bool :=
  match s.memControl with
  | .readMem | .writeMem => input.doneM
  | _ => false

/-- The load or store in M: whether it is a store, and its address. -/
def memRequests : List (Bool × Word) :=
  if s.memStrobeM then [(s.core.controlregM.memWriteM, s.addressM)] else []

/-- The transaction that starts in the cycle: `DRW` and the address. -/
def axiStarts : List (Bool × Word) :=
  if s.starts input then [((s.memControlNegedge input).drw, s.addressM)] else []

theorem starts_eq : s.starts input = (s.memStrobeM && decide (s.memControl = .idle)) :=
  MemState.axiStart_next _ _ _ _

theorem starts_idle {input : Input} {s : Top} (h : s.starts input = true) :
    s.memControl = .idle ∧ s.memStrobeM = true := by
  rw [starts_eq, Bool.and_eq_true, decide_eq_true_iff] at h
  exact ⟨h.2, h.1⟩

theorem memControlNegedge_starts {input : Input} {s : Top} (h : s.starts input = true) :
    s.memControlNegedge input =
      if s.core.controlregM.memWriteM then .writeStart else .readStart := by
  obtain ⟨idle, strobe⟩ := starts_idle h
  rw [memControlNegedge, idle, strobe]
  rfl

/-- In each cycle the transactions that start are the requests in M, unless one
meets a busy `MemControl`. -/
theorem axiStarts_eq_iff : s.axiStarts input = s.memRequests ↔
    (s.memStrobeM = true → s.memControl = .idle) := by
  rw [axiStarts, memRequests]
  cases strobe : s.memStrobeM with
  | false =>
    have quiet : s.starts input = false := by rw [starts_eq, strobe]; rfl
    rw [quiet]
    exact iff_of_true rfl (fun active => by cases active)
  | true =>
    by_cases idle : s.memControl = .idle
    · have begins : s.starts input = true := by rw [starts_eq, strobe, idle]; rfl
      have drw : (s.memControlNegedge input).drw = s.core.controlregM.memWriteM := by
        rw [memControlNegedge_starts begins]
        cases s.core.controlregM.memWriteM <;> rfl
      rw [begins, drw]
      exact iff_of_true rfl (fun _ => idle)
    · have dropped : s.starts input = false := by
        rw [starts_eq, strobe, decide_eq_false idle]
        rfl
      rw [dropped]
      exact iff_of_false (by simp) (fun accepted => idle (accepted rfl))

/-- A read is open after the falling edge if it has just started or was open and
has not been acknowledged. -/
theorem reading_negedge : (s.memControlNegedge input).reading = true ↔
    ((s.starts input = true ∧ s.core.controlregM.memWriteM = false) ∨
      s.memControl.reading = true) ∧ ¬ s.acknowledged input = true := by
  rw [starts_eq, acknowledged, memControlNegedge]
  cases s.memControl <;> cases s.memStrobeM <;> cases s.core.controlregM.memWriteM <;>
    cases input.doneM <;> decide

theorem writing_negedge : (s.memControlNegedge input).writing = true ↔
    ((s.starts input = true ∧ s.core.controlregM.memWriteM = true) ∨
      s.memControl.writing = true) ∧ ¬ s.acknowledged input = true := by
  rw [starts_eq, acknowledged, memControlNegedge]
  cases s.memControl <;> cases s.memStrobeM <;> cases s.core.controlregM.memWriteM <;>
    cases input.doneM <;> decide

end Top

section Strobe

variable {imem : Ram} {input : Input} {s : Top}

/-- The strobe in E marks the opcodes of loads and stores, and `MemWriteE` the stores. -/
structure StrobeE (s : Top) : Prop where
  strobe : s.memStrobeE =
    (s.core.controlregE.opE == 0b0000011 || s.core.controlregE.opE == 0b0100011)
  write : s.memStrobeE = true →
    s.core.controlregE.memWriteE = (s.core.controlregE.opE == 0b0100011)

theorem strobeE_clock (imem : Ram) (input : Input) (s : Top) : StrobeE (s.clock imem input) := by
  have control : (s.clock imem input).core.controlregE = floprc .zero (s.core.flushE input.undef)
      (Core.controlD input.undef s.core.regD.instrD) := rfl
  have strobe : (s.clock imem input).memStrobeE =
      floprc false (s.core.flushE input.undef) s.memStrobeD := rfl
  cases flush : s.core.flushE input.undef with
  | true =>
    rw [flush] at control strobe
    refine ⟨?_, ?_⟩
    · rw [strobe, control]
      rfl
    · rw [strobe]
      intro impossible
      cases impossible
  | false =>
    rw [flush] at control strobe
    refine ⟨?_, ?_⟩
    · rw [strobe, control]
      rfl
    · rw [strobe, control]
      intro active
      change (maindec input.undef s.core.opD).memWrite = (s.core.opD == 0b0100011)
      have cases : s.core.opD = 0b0000011 ∨ s.core.opD = 0b0100011 := by
        simpa [floprc, Top.memStrobeD] using active
      rcases cases with load | store
      · rw [load, maindec_load]
        rfl
      · rw [store, maindec_store]
        rfl

end Strobe

section Run

variable {imem : Ram} {input : Nat → Input} {rf : RegArray}

/-- Every word of the program encodes a supported instruction. -/
def Legal (imem : Ram) : Prop := ∀ index, ∃ i, decode (imem index) = some i

theorem topRun_decodes (legal : Legal imem) (n : Nat) : (topRun imem input rf n).core.Decodes := by
  refine run_invariant (fun _ (s : Top) => s.core.Decodes) (.inl rfl) (fun k h => ?_) n
  obtain ⟨i, decodes⟩ := legal (wordIndex (topRun imem input rf k).core.pcF)
  exact h.clock _ _ _ _ ⟨i, encodes_of_decode decodes⟩

theorem topRun_contents (legal : Legal imem) :
    ∀ n, (topRun imem input rf n).core.Contents
  | 0 => .inl ⟨rfl, rfl⟩
  | n + 1 => (topRun_decodes legal n).contents _ _ _ _

theorem topRun_strobeE (imem : Ram) (input : Nat → Input) (rf : RegArray) (n : Nat) :
    StrobeE (topRun imem input rf n) :=
  run_invariant (fun _ => StrobeE) ⟨rfl, fun impossible => by cases impossible⟩
    (fun k _ => strobeE_clock imem (input k) _) n

/-- The strobe in M marks the loads and stores that were in E. -/
theorem memStrobeM_eq (imem : Ram) (input : Nat → Input) (rf : RegArray) (n : Nat) :
    (topRun imem input rf (n + 1)).memStrobeM =
        ((topRun imem input rf n).core.controlregE.opE == 0b0000011 ||
          (topRun imem input rf n).core.controlregE.opE == 0b0100011) ∧
      ((topRun imem input rf (n + 1)).memStrobeM = true →
        (topRun imem input rf (n + 1)).core.controlregM.memWriteM =
          ((topRun imem input rf n).core.controlregE.opE == 0b0100011)) :=
  ⟨(topRun_strobeE imem input rf n).strobe, (topRun_strobeE imem input rf n).write⟩

/-- The open read windows are the reading states of `MemControl`. -/
theorem open_reading (imem : Ram) (input : Nat → Input) (rf : RegArray) (n : Nat) :
    Open (fun n => (topRun imem input rf n).starts (input n) = true ∧
        (topRun imem input rf n).core.controlregM.memWriteM = false)
      (fun n => (topRun imem input rf n).acknowledged (input n) = true) n ↔
    (topRun imem input rf n).memControl.reading = true :=
  open_iff (fun n => (topRun imem input rf n).memControl.reading = true)
    (by decide : ¬ MemState.idle.reading = true) (fun _ => Top.reading_negedge _ _) n

theorem open_writing (imem : Ram) (input : Nat → Input) (rf : RegArray) (n : Nat) :
    Open (fun n => (topRun imem input rf n).starts (input n) = true ∧
        (topRun imem input rf n).core.controlregM.memWriteM = true)
      (fun n => (topRun imem input rf n).acknowledged (input n) = true) n ↔
    (topRun imem input rf n).memControl.writing = true :=
  open_iff (fun n => (topRun imem input rf n).memControl.writing = true)
    (by decide : ¬ MemState.idle.writing = true) (fun _ => Top.writing_negedge _ _) n

theorem open_any (imem : Ram) (input : Nat → Input) (rf : RegArray) (n : Nat) :
    Open (fun n => (topRun imem input rf n).starts (input n) = true)
      (fun n => (topRun imem input rf n).acknowledged (input n) = true) n ↔
    ((topRun imem input rf n).memControl.reading = true ∨
      (topRun imem input rf n).memControl.writing = true) := by
  rw [open_kinds (fun n => (topRun imem input rf n).core.controlregM.memWriteM),
    open_reading, open_writing]

/-- From its start to its acknowledgement a transaction keeps the direction of its
instruction. -/
theorem drw_kept {n m : Nat} (starts : (topRun imem input rf n).starts (input n) = true)
    (before : n < m)
    (runs : ∀ j, n ≤ j → j < m → ¬ (topRun imem input rf j).acknowledged (input j) = true) :
    (topRun imem input rf m).memControl.drw =
      (topRun imem input rf n).core.controlregM.memWriteM := by
  cases kind : (topRun imem input rf n).core.controlregM.memWriteM with
  | false =>
    exact MemState.drw_of_reading
      ((open_reading imem input rf m).mp (open_of_start before ⟨starts, kind⟩ runs))
  | true =>
    exact MemState.drw_of_writing
      ((open_writing imem input rf m).mp (open_of_start before ⟨starts, kind⟩ runs))

/-- Every load and store in M starts one transaction, in program order and with its
own direction and address. -/
def ExactlyOnce (imem : Ram) (input : Nat → Input) (rf : RegArray) : Prop :=
  ∀ n, trace Top.axiStarts (Top.clock imem) input (Top.reset rf) n =
    trace (fun _ s => s.memRequests) (Top.clock imem) input (Top.reset rf) n

/-- From its start up to `doneM` a transaction has the direction, the address and,
if it is a write, the store word of the instruction that started it. -/
def Presented (imem : Ram) (input : Nat → Input) (rf : RegArray) : Prop :=
  ∀ n m, (topRun imem input rf n).starts (input n) = true → n ≤ m →
    (∀ j, n ≤ j → j < m → ¬ (topRun imem input rf j).acknowledged (input j) = true) →
    (n < m → (topRun imem input rf m).memControl.drw =
      (topRun imem input rf n).core.controlregM.memWriteM) ∧
    (topRun imem input rf m).addressM = (topRun imem input rf n).addressM ∧
    ((topRun imem input rf n).core.controlregM.memWriteM = true →
      (topRun imem input rf m).writeDataM (input m) = (topRun imem input rf n).writeDataM (input n))

theorem exactlyOnce_iff (imem : Ram) (input : Nat → Input) (rf : RegArray) :
    ExactlyOnce imem input rf ↔ ∀ n, (topRun imem input rf n).memStrobeM = true →
      (topRun imem input rf n).memControl = .idle := by
  rw [ExactlyOnce, trace_eq_iff]
  exact forall_congr' (fun n => Top.axiStarts_eq_iff (input n) (topRun imem input rf n))

theorem presented_iff (imem : Ram) (input : Nat → Input) (rf : RegArray) :
    Presented imem input rf ↔
      (∀ n, ((topRun imem input rf (n + 1)).memControl.reading = true ∨
          (topRun imem input rf (n + 1)).memControl.writing = true) →
        (topRun imem input rf (n + 1)).addressM = (topRun imem input rf n).addressM) ∧
      (∀ n, (topRun imem input rf (n + 1)).memControl.writing = true →
        (topRun imem input rf (n + 1)).writeDataM (input (n + 1)) =
          (topRun imem input rf n).writeDataM (input n)) := by
  have addresses := kept_iff
    (fun n => (topRun imem input rf n).starts (input n) = true)
    (fun n => (topRun imem input rf n).acknowledged (input n) = true)
    (fun n => (topRun imem input rf n).addressM)
  have words := kept_iff
    (fun n => (topRun imem input rf n).starts (input n) = true ∧
      (topRun imem input rf n).core.controlregM.memWriteM = true)
    (fun n => (topRun imem input rf n).acknowledged (input n) = true)
    (fun n => (topRun imem input rf n).writeDataM (input n))
  simp only [open_any] at addresses
  simp only [open_writing] at words
  rw [← addresses, ← words]
  constructor
  · intro presented
    exact ⟨fun n m starts later runs => (presented n m starts later runs).2.1,
      fun n m starts later runs => (presented n m starts.1 later runs).2.2 starts.2⟩
  · rintro ⟨address, word⟩ n m starts later runs
    exact ⟨fun before => drw_kept starts before runs, address n m starts later runs,
      fun write => word n m ⟨starts, write⟩ later runs⟩

/-- What leaves E for M while `MemControl` is busy is no load or store; while a
transaction is open its ALU result is the address of the transaction, and if that
is a write its second operand is the store word. -/
structure Undisturbed (input : Input) (s : Top) : Prop where
  request : s.memControlNegedge input ≠ .idle → s.memStrobeE = false
  address : ((s.memControlNegedge input).reading = true ∨
    (s.memControlNegedge input).writing = true) → (s.core.aluE input.undef).result = s.addressM
  word : (s.memControlNegedge input).writing = true → s.core.writeDataE = s.writeDataM input

/-- No load or store meets a busy `MemControl` in M if none leaves E while it is busy. -/
theorem requests_iff (imem : Ram) (input : Nat → Input) (rf : RegArray) :
    (∀ n, (topRun imem input rf n).memStrobeM = true →
        (topRun imem input rf n).memControl = .idle) ↔
      ∀ n, (topRun imem input rf n).memControlNegedge (input n) ≠ .idle →
        (topRun imem input rf n).memStrobeE = false := by
  constructor
  · intro accepted n busy
    by_contra strobe
    exact busy (accepted (n + 1) (Bool.eq_true_of_not_eq_false strobe))
  · intro quiet n strobe
    cases n with
    | zero => rfl
    | succ n =>
      by_contra busy
      have none : (topRun imem input rf (n + 1)).memStrobeM = false := quiet n busy
      rw [none] at strobe
      cases strobe

/-- Behind an instruction that is no load or store M presents its second operand. -/
theorem writeDataM_succ (legal : Legal imem) {n : Nat}
    (quiet : (topRun imem input rf n).memStrobeE = false) :
    (topRun imem input rf (n + 1)).writeDataM (input (n + 1)) =
      (topRun imem input rf n).core.writeDataE := by
  have strobe := (topRun_strobeE imem input rf n).strobe
  rw [quiet] at strobe
  have noStore : (topRun imem input rf n).core.controlregE.opE ≠ 0b0100011 := by
    intro store
    rw [store] at strobe
    cases strobe
  have reads : (topRun imem input rf (n + 1)).core.controlregM.memWriteM = false :=
    Core.Contents.memWrite (topRun_contents legal n) noStore
  rw [Top.writeDataM, Core.storeOutM, reads]
  rfl

/-- The strobe in M marks the loads and stores that come from E, and `MemWriteM` the
stores. Each of them starts exactly one transaction and is presented until it is
acknowledged if and only if no transaction is disturbed by what follows it out of E. -/
theorem transactions_iff (imem : Ram) (input : Nat → Input) (rf : RegArray)
    (legal : Legal imem) :
    (∀ n, (topRun imem input rf (n + 1)).memStrobeM =
        ((topRun imem input rf n).core.controlregE.opE == 0b0000011 ||
          (topRun imem input rf n).core.controlregE.opE == 0b0100011) ∧
      ((topRun imem input rf (n + 1)).memStrobeM = true →
        (topRun imem input rf (n + 1)).core.controlregM.memWriteM =
          ((topRun imem input rf n).core.controlregE.opE == 0b0100011))) ∧
    (ExactlyOnce imem input rf ∧ Presented imem input rf ↔
      ∀ n, Undisturbed (input n) (topRun imem input rf n)) := by
  refine ⟨memStrobeM_eq imem input rf, ?_⟩
  have busy : ∀ n, ((topRun imem input rf n).memControlNegedge (input n)).writing = true →
      (topRun imem input rf n).memControlNegedge (input n) ≠ .idle := by
    intro n write idle
    rw [idle] at write
    cases write
  rw [exactlyOnce_iff, requests_iff, presented_iff]
  constructor
  · rintro ⟨request, address, word⟩ n
    refine ⟨request n, address n, fun write => ?_⟩
    rw [← writeDataM_succ legal (request n (busy n write))]
    exact word n write
  · intro undisturbed
    refine ⟨fun n => (undisturbed n).request, fun n => (undisturbed n).address, fun n write => ?_⟩
    rw [writeDataM_succ legal ((undisturbed n).request (busy n write))]
    exact (undisturbed n).word write

/-- A store of `x0` to address 0 with a loop behind it. -/
def storeLoopProgram : Ram := fun index =>
  match index.toNat with
  | 0 => 0x00002023 -- sw x0, 0(x0)
  | _ => 0x00000063 -- beq x0, x0, 0

def readyInput : Input := { (default : Input) with doneM := true }

theorem storeLoopProgram_legal : Legal storeLoopProgram := by
  intro index
  rw [storeLoopProgram]
  split
  · exact ⟨.store .sw 0 0 0, by decide⟩
  · exact ⟨.branch .beq 0 0 0, by decide⟩

/-- The loop takes three cycles. -/
theorem storeLoop_back :
    topRun storeLoopProgram (fun _ => readyInput) (fun _ => 0) (7 + 3) =
      topRun storeLoopProgram (fun _ => readyInput) (fun _ => 0) 7 := by
  refine Top.ext (Core.ext ?_ (RegD.ext ?_ ?_ ?_) ?_ (RegE.ext ?_ ?_ ?_ ?_ ?_ ?_ ?_ ?_ ?_)
    (ControlRegM.ext ?_ ?_ ?_) (RegM.ext ?_ ?_ ?_ ?_ ?_ ?_ ?_) ?_
    (RegW.ext ?_ ?_ ?_ ?_ ?_ ?_ ?_ ?_) (funext ?_)) ?_ ?_ ?_ <;> decide +kernel

/-- The branches behind the store compute 0 from 0 and 0, as the store did. -/
theorem transactions_iff_loop : ExactlyOnce storeLoopProgram (fun _ => readyInput) (fun _ => 0) ∧
    Presented storeLoopProgram (fun _ => readyInput) (fun _ => 0) := by
  refine (transactions_iff storeLoopProgram (fun _ => readyInput) (fun _ => 0)
    storeLoopProgram_legal).2.mpr ?_
  refine run_periodic storeLoop_back (fun n before => ?_)
  refine ⟨?_, ?_, ?_⟩ <;> revert n <;> decide +kernel

/-- A store with a load behind it. -/
def storeLoadProgram : Ram := fun index =>
  match index.toNat with
  | 0 => 0x00002023 -- sw x0, 0(x0)
  | 1 => 0x00402083 -- lw x1, 4(x0)
  | _ => 0x00000063 -- beq x0, x0, 0

theorem storeLoadProgram_legal : Legal storeLoadProgram := by
  intro index
  rw [storeLoadProgram]
  split
  · exact ⟨.store .sw 0 0 0, by decide⟩
  · exact ⟨.load .lw 1 0 4, by decide⟩
  · exact ⟨.branch .beq 0 0 0, by decide⟩

/-- The load reaches M one cycle after the store, meets a busy `MemControl` and is
dropped; its address is on the port while the store is being written. -/
theorem storeLoad_dropped : Legal storeLoadProgram ∧
    ¬ ExactlyOnce storeLoadProgram (fun _ => default) (fun _ => 0) ∧
    ¬ Presented storeLoadProgram (fun _ => default) (fun _ => 0) := by
  refine ⟨storeLoadProgram_legal, ?_, ?_⟩
  · rw [exactlyOnce_iff]
    intro accepted
    have idle := accepted 4 (by decide +kernel)
    revert idle
    decide +kernel
  · rw [presented_iff]
    rintro ⟨address, -⟩
    have same := address 3 (by decide +kernel)
    revert same
    decide +kernel

end Run

end RiscvLab.Board
