import Mathlib.Order.Interval.Finset.Nat
import RiscvLab.SingleBoard.Top

/-!
# Transactions of the single-cycle core

Between two updates of the program counter the core works on one instruction. A load
or store takes `MemControl` once through its states; any other instruction leaves
it idle and takes one cycle.
-/
namespace RiscvLab.SingleBoard
open RiscvLab.Lib.ByteMemory RiscvLab.Lib.Run RiscvLab.Hdl RiscvLab.Rv32i RiscvLab.Single
open RiscvLab.Board (MemState)
open RiscvLab.Board.MemState

section Run

variable (imem : Ram) (input : Nat → Input) (rf : RegArray)

/-- Cycle `s` is the first one of an instruction: reset, or the program counter was
updated on the edge before it. -/
def Begins (s : Nat) : Prop :=
  ∀ k, s = k + 1 → (topRun imem input rf k).pcReady imem (input k) = true

/-- The program counter has not been updated since the start of cycle `s`. -/
def Waits (s m : Nat) : Prop :=
  s ≤ m ∧ ∀ j, s ≤ j → j < m → (topRun imem input rf j).pcReady imem (input j) = false

/-- The `AXIStart` pulses of the cycles from `s` to `m`. -/
def pulses (s m : Nat) : Nat :=
  ((Finset.Icc s m).filter
    (fun j => (topRun imem input rf j).starts imem (input j) = true)).card

variable {imem input rf} {s m : Nat} {i : Instr}

theorem Waits.mono (h : Waits imem input rf s m) {j : Nat} (after : s ≤ j) (before : j ≤ m) :
    Waits imem input rf s j :=
  ⟨after, fun k later earlier => h.2 k later (Nat.lt_of_lt_of_le earlier before)⟩

theorem Begins.idle (h : Begins imem input rf s) : (topRun imem input rf s).memControl = .idle := by
  cases s with
  | zero => rfl
  | succ k => exact (done_iff _).mp (h k rfl)

/-- While the core waits it stays at its instruction. -/
theorem Waits.pc (h : Waits imem input rf s m) :
    (topRun imem input rf m).core.pc = (topRun imem input rf s).core.pc := by
  obtain ⟨after, waiting⟩ := h
  induction m, after using Nat.le_induction with
  | base => rfl
  | succ m after ih =>
    have held : (topRun imem input rf (m + 1)).core.pc = flopenr
        ((topRun imem input rf m).pcReady imem (input m)) _ (topRun imem input rf m).core.pc := rfl
    rw [held, waiting m after (Nat.lt_succ_self m)]
    exact ih (fun j later earlier => waiting j later (Nat.lt_succ_of_lt earlier))

theorem Waits.instr (h : Waits imem input rf s m) :
    (topRun imem input rf m).instr imem = (topRun imem input rf s).instr imem := by
  rw [Top.instr, Top.instr, h.pc]

theorem Waits.executes (h : Waits imem input rf s m) :
    (topRun imem input rf m).executes imem = (topRun imem input rf s).executes imem := by
  rw [Top.executes, Top.executes, h.instr]

theorem negedge_decoded {k : Nat} (here : (topRun imem input rf k).executes imem = some i) :
    (topRun imem input rf k).memControlNegedge imem (input k) =
      (topRun imem input rf k).memControl.next (isMemory i) (isStore i) (input k).doneM := by
  have enc := encodes_of_decode here
  rw [Top.memControlNegedge, memStrobe_decoded _ enc, memWrite_decoded _ enc]

/-- The state of `MemControl` in cycle `m` of a load or store that began in cycle `s`. -/
inductive Phase (imem : Ram) (input : Nat → Input) (rf : RegArray) (store : Bool) (s m : Nat) : Prop
  | fresh (now : m = s) (state : (topRun imem input rf m).memControl = .idle)
  | start (now : m = s + 1) (state : (topRun imem input rf m).memControl = startOf store)
  | mem (now : s + 1 < m) (state : (topRun imem input rf m).memControl = memOf store)
  | data (now : s < m) (state : (topRun imem input rf m).memControl = dataOf store)
      (sampled : ∃ j, s < j ∧ j < m ∧ (topRun imem input rf j).memControl = memOf store ∧
        (input j).doneM = true)

/-- A falling edge without an update of the program counter leads to the next phase. -/
theorem Phase.succ {store : Bool} (h : Phase imem input rf store s m)
    (here : (topRun imem input rf m).memControlNegedge imem (input m) =
      (topRun imem input rf m).memControl.next true store (input m).doneM)
    (waiting : (topRun imem input rf m).pcReady imem (input m) = false) :
    Phase imem input rf store s (m + 1) := by
  have next : (topRun imem input rf (m + 1)).memControl =
      (topRun imem input rf m).memControl.next true store (input m).doneM := here
  cases h with
  | fresh now state =>
    rw [state, next_idle] at next
    exact .start (by omega) next
  | start now state =>
    rw [state, next_start] at next
    exact .mem (by omega) next
  | mem now state =>
    rw [state, next_mem] at next
    cases sampled : (input m).doneM with
    | true =>
      rw [sampled] at next
      exact .data (by omega) next ⟨m, by omega, Nat.lt_succ_self m, state, sampled⟩
    | false =>
      rw [sampled] at next
      exact .mem (by omega) next
  | data now state sampled =>
    -- the transaction is over, so the program counter is updated
    have done : (topRun imem input rf m).pcReady imem (input m) = true := by
      rw [Top.pcReady, here, state, next_data]
      rfl
    rw [done] at waiting
    cases waiting

theorem phase (begins : Begins imem input rf s)
    (here : (topRun imem input rf s).executes imem = some i) (memory : isMemory i = true)
    (waits : Waits imem input rf s m) : Phase imem input rf (isStore i) s m := by
  obtain ⟨after, waiting⟩ := waits
  induction m, after using Nat.le_induction with
  | base => exact .fresh rfl begins.idle
  | succ m after ih =>
    have earlier : Waits imem input rf s m :=
      ⟨after, fun j later earlier => waiting j later (Nat.lt_succ_of_lt earlier)⟩
    have edge := negedge_decoded (earlier.executes.trans here)
    rw [memory] at edge
    exact (ih earlier.2).succ edge (waiting m after (Nat.lt_succ_self m))

/-- Of the cycles of an instruction only the first can start a transaction. -/
theorem starts_iff (begins : Begins imem input rf s)
    (here : (topRun imem input rf s).executes imem = some i) (waits : Waits imem input rf s m) :
    (topRun imem input rf m).starts imem (input m) = true ↔ m = s ∧ isMemory i = true := by
  have edge := negedge_decoded (waits.executes.trans here)
  have pulse : (topRun imem input rf m).starts imem (input m) =
      (isMemory i && decide ((topRun imem input rf m).memControl = .idle)) := by
    rw [Top.starts, edge, MemState.axiStart_next]
  rw [pulse, Bool.and_eq_true, decide_eq_true_iff]
  constructor
  · rintro ⟨memory, idle⟩
    refine ⟨?_, memory⟩
    cases phase begins here memory waits with
    | fresh now => exact now
    | start now state => exact absurd (state.symm.trans idle) (busy_states _).1
    | mem now state => exact absurd (state.symm.trans idle) (busy_states _).2.1
    | data now state => exact absurd (state.symm.trans idle) (busy_states _).2.2
  · rintro ⟨rfl, memory⟩
    exact ⟨memory, begins.idle⟩

theorem pulses_eq (begins : Begins imem input rf s)
    (here : (topRun imem input rf s).executes imem = some i) (waits : Waits imem input rf s m) :
    pulses imem input rf s m = if isMemory i then 1 else 0 := by
  have iff : ∀ j ∈ Finset.Icc s m, (topRun imem input rf j).starts imem (input j) = true ↔
      j = s ∧ isMemory i = true := by
    intro j inside
    rw [Finset.mem_Icc] at inside
    exact starts_iff begins here (waits.mono inside.1 inside.2)
  rw [pulses, Finset.filter_congr iff]
  cases isMemory i with
  | true => simp [Finset.filter_eq', waits.1]
  | false => simp

/-- What is no load or store leaves after one clock. -/
theorem other_leaves (begins : Begins imem input rf s)
    (here : (topRun imem input rf s).executes imem = some i) (other : isMemory i = false)
    (waits : Waits imem input rf s m) :
    m = s ∧ (topRun imem input rf s).pcReady imem (input s) = true := by
  have ready : (topRun imem input rf s).pcReady imem (input s) = true := by
    rw [Top.pcReady, negedge_decoded here, begins.idle, other]
    rfl
  refine ⟨?_, ready⟩
  by_contra later
  have order := waits.1
  have waiting := waits.2 s (Nat.le_refl s) (by omega)
  rw [ready] at waiting
  cases waiting

/-- A load or store leaves only after `doneM` was sampled. -/
theorem Phase.sampled {store : Bool} (h : Phase imem input rf store s m)
    (here : (topRun imem input rf m).memControlNegedge imem (input m) =
      (topRun imem input rf m).memControl.next true store (input m).doneM)
    (ready : (topRun imem input rf m).pcReady imem (input m) = true) :
    ∃ j, s < j ∧ j < m ∧ (topRun imem input rf j).memControl = memOf store ∧
      (input j).doneM = true := by
  obtain ⟨start, mem, data⟩ := busy_states store
  rw [Top.pcReady, here, done_iff] at ready
  cases h with
  | fresh now state =>
    rw [state, next_idle] at ready
    exact absurd ready start
  | start now state =>
    rw [state, next_start] at ready
    exact absurd ready mem
  | mem now state =>
    rw [state, next_mem] at ready
    split at ready
    · exact absurd ready data
    · exact absurd ready mem
  | data now state sampled => exact sampled

/-- While a transaction is started and awaited, `DRW` is `MemWrite`. -/
theorem drw_eq (begins : Begins imem input rf s)
    (here : (topRun imem input rf s).executes imem = some i) (waits : Waits imem input rf s m)
    (active : ((topRun imem input rf m).memControlNegedge imem (input m)).reading = true ∨
      ((topRun imem input rf m).memControlNegedge imem (input m)).writing = true) :
    ((topRun imem input rf m).memControlNegedge imem (input m)).drw =
      (controls (input m) ((topRun imem input rf m).instr imem)).memWrite := by
  have same := waits.executes.trans here
  rw [memWrite_decoded (input m) (encodes_of_decode same)]
  rw [negedge_decoded same] at active ⊢
  cases memory : isMemory i with
  | true =>
    rw [memory] at active
    cases phase begins here memory waits with
    | fresh now state =>
      rw [state, next_idle]
      exact drw_startOf _
    | start now state =>
      rw [state, next_start]
      exact drw_memOf _
    | mem now state =>
      rw [state, next_mem] at active ⊢
      cases trigger : (input m).doneM with
      | true =>
        rw [trigger] at active
        exact absurd active (by cases isStore i <;> decide)
      | false => exact drw_memOf _
    | data now state =>
      rw [state, next_data] at active
      exact absurd active (by decide)
  | false =>
    rw [memory, (other_leaves begins here memory waits).1, begins.idle] at active
    change MemState.idle.reading = true ∨ MemState.idle.writing = true at active
    exact absurd active (by decide)

/-- From the update of the program counter that brings an instruction in up to the next
one: a load or store has exactly one `AXIStart` pulse and any other instruction none,
`DRW` is its `MemWrite` while the transaction is started and awaited, the program
counter moves on from a load or store only after `doneM` was sampled high in `ReadMem`
or `WriteMem`, and from any other instruction after one clock. -/
theorem one_transaction (imem : Ram) (input : Nat → Input) (rf : RegArray) {s m : Nat}
    (begins : Begins imem input rf s) (waits : Waits imem input rf s m) {i : Instr}
    (here : (topRun imem input rf s).executes imem = some i) :
    (topRun imem input rf m).executes imem = some i ∧
    pulses imem input rf s m = (if isMemory i then 1 else 0) ∧
    (∀ j, s ≤ j → j ≤ m →
      ((topRun imem input rf j).memControlNegedge imem (input j)).reading = true ∨
        ((topRun imem input rf j).memControlNegedge imem (input j)).writing = true →
      ((topRun imem input rf j).memControlNegedge imem (input j)).drw =
        (controls (input j) ((topRun imem input rf j).instr imem)).memWrite) ∧
    (isMemory i = true → (topRun imem input rf m).pcReady imem (input m) = true →
      ∃ j, s < j ∧ j < m ∧ ((topRun imem input rf j).memControl = .readMem ∨
        (topRun imem input rf j).memControl = .writeMem) ∧ (input j).doneM = true) ∧
    (isMemory i = false → m = s ∧ (topRun imem input rf s).pcReady imem (input s) = true) := by
  refine ⟨waits.executes.trans here, pulses_eq begins here waits,
    fun j after before => drw_eq begins here (waits.mono after before), fun memory ready => ?_,
    fun other => ?_⟩
  · have edge := negedge_decoded (waits.executes.trans here)
    rw [memory] at edge
    obtain ⟨j, after, before, state, sampled⟩ :=
      (phase begins here memory waits).sampled edge ready
    refine ⟨j, after, before, ?_, sampled⟩
    cases store : isStore i with
    | true => exact .inr (state.trans (congrArg memOf store))
    | false => exact .inl (state.trans (congrArg memOf store))
  · exact other_leaves begins here other waits

/-- `lw x1, 0(x0)`, then a loop. -/
def loadProgram : Ram := fun index =>
  match index.toNat with
  | 0 => 0x00002083 -- lw x1, 0(x0)
  | _ => 0x00000063 -- beq x0, x0, 0

/-- `doneM` arrives in cycle 4. -/
def loadInput (n : Nat) : Input := { (default : Input) with doneM := decide (4 ≤ n) }

/-- The load takes the cycles 0 to 5, with one pulse and `doneM` sampled in cycle 4. -/
theorem one_transaction_load : pulses loadProgram loadInput (fun _ => 0) 0 5 = 1 ∧
    ∃ j, 0 < j ∧ j < 5 ∧ ((topRun loadProgram loadInput (fun _ => 0) j).memControl = .readMem ∨
      (topRun loadProgram loadInput (fun _ => 0) j).memControl = .writeMem) ∧
      (loadInput j).doneM = true := by
  have waits : Waits loadProgram loadInput (fun _ => 0) 0 5 := by
    refine ⟨by decide, fun j _ before => ?_⟩
    revert j
    decide +kernel
  have transaction := one_transaction loadProgram loadInput (fun _ => 0) (s := 0)
    (fun k impossible => by cases impossible) waits (i := .load .lw 1 0 0) (by decide)
  exact ⟨transaction.2.1, transaction.2.2.2.1 rfl (by decide +kernel)⟩

end Run

end RiscvLab.SingleBoard
