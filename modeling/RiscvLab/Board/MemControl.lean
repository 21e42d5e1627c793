import Mathlib.Init

/-!
# MemControl

The state machine of memcontroller.sv, the same file in lab2 and lab3. It is clocked
on the falling edge; its outputs depend on its state alone.
-/
namespace RiscvLab.Board

/-- `statetype` of `MemControl`. -/
inductive MemState
  | idle
  | readStart
  | readMem
  | readData
  | writeStart
  | writeMem
  | writeData
  deriving DecidableEq, Repr

namespace MemState

/-- `nextstate`. -/
def next (mStrobe memWrite trigger : Bool) : MemState → MemState
  | idle => if mStrobe then (if memWrite then writeStart else readStart) else idle
  | readStart => readMem
  | readMem => if trigger then readData else readMem
  | readData => idle
  | writeStart => writeMem
  | writeMem => if trigger then writeData else writeMem
  | writeData => idle

/-- The first bit of `OutputLogic`. -/
def done : MemState → Bool
  | idle => true
  | _ => false

/-- The second bit of `OutputLogic`. -/
def drw : MemState → Bool
  | idle | writeStart | writeMem => true
  | readStart | readMem | readData | writeData => false

/-- The third bit of `OutputLogic`. -/
def axiStart : MemState → Bool
  | readStart | writeStart => true
  | _ => false

/-- A read that has not been acknowledged. -/
def reading : MemState → Bool
  | readStart | readMem => true
  | _ => false

/-- A write that has not been acknowledged. -/
def writing : MemState → Bool
  | writeStart | writeMem => true
  | _ => false

theorem drw_of_reading {state : MemState} (h : state.reading = true) : state.drw = false := by
  cases state <;> first | rfl | cases h

theorem drw_of_writing {state : MemState} (h : state.writing = true) : state.drw = true := by
  cases state <;> first | rfl | cases h

/-- A transaction starts exactly when a strobe meets the idle state. -/
theorem axiStart_next (state : MemState) (mStrobe memWrite trigger : Bool) :
    (state.next mStrobe memWrite trigger).axiStart = (mStrobe && decide (state = idle)) := by
  cases state <;> cases mStrobe <;> cases memWrite <;> cases trigger <;> rfl

section States

/-- `WriteStart` or `ReadStart`. -/
def startOf : Bool → MemState
  | true => .writeStart
  | false => .readStart

/-- `WriteMem` or `ReadMem`. -/
def memOf : Bool → MemState
  | true => .writeMem
  | false => .readMem

/-- `WriteData` or `ReadData`. -/
def dataOf : Bool → MemState
  | true => .writeData
  | false => .readData

variable (store mStrobe memWrite trigger : Bool)

theorem next_idle : idle.next true store trigger = startOf store := by
  cases store <;> rfl

theorem next_start : (startOf store).next mStrobe memWrite trigger = memOf store := by
  cases store <;> rfl

theorem next_mem : (memOf store).next mStrobe memWrite trigger =
    if trigger then dataOf store else memOf store := by
  cases store <;> rfl

theorem next_data : (dataOf store).next mStrobe memWrite trigger = .idle := by
  cases store <;> rfl

theorem done_iff (state : MemState) : state.done = true ↔ state = .idle := by
  cases state <;> decide

theorem busy_states : startOf store ≠ .idle ∧ memOf store ≠ .idle ∧ dataOf store ≠ .idle := by
  cases store <;> decide

theorem drw_startOf : (startOf store).drw = store := by
  cases store <;> rfl

theorem drw_memOf : (memOf store).drw = store := by
  cases store <;> rfl

theorem axiStart_memOf : (memOf store).axiStart = false := by
  cases store <;> rfl

theorem axiStart_dataOf : (dataOf store).axiStart = false := by
  cases store <;> rfl

theorem busy_memOf : (memOf store).done = false := by
  cases store <;> rfl

theorem memOf_inj {store kind : Bool} (same : memOf store = memOf kind) : store = kind := by
  cases store <;> cases kind <;> first | rfl | cases same

end States

end MemState

end RiscvLab.Board
