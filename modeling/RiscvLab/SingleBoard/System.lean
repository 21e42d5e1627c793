import RiscvLab.Board.Memory
import RiscvLab.Board.Progress
import RiscvLab.SingleBoard.Wait

/-!
# The single-cycle core with its converter

The block design of lab2: `top` drives the converter, which is the same file as in lab3, and
the converter an AXI slave. The port of the board is `MemControl` and the converter with what
the core asks of them.
-/
namespace RiscvLab.SingleBoard
open RiscvLab.Lib.ByteMemory RiscvLab.Lib.Run RiscvLab.Hdl RiscvLab.Rv32i RiscvLab.Single
open RiscvLab.Board (MemState SlaveInput Converter Port PortInput portRun Taken SlaveMem
  MemorySlave Responsive)

/-- What the slave drives in one cycle, and the `x` values of the core. -/
structure BoardInput where
  strobe : Bool
  slave : SlaveInput
  deriving Inhabited

/-- `top_0` and `AXI_Converter_0` of the block design. -/
structure System where
  top : Top
  converter : Converter

namespace System

section Signals

variable (imem : Ram) (board : BoardInput) (s : System)

def input : Input where
  undef := board.slave.undef
  strobe := board.strobe
  doneM := s.converter.compareDone
  readDataM := s.converter.dataOut

/-- What the core asks of the memory port. -/
def portInput : PortInput where
  mStrobe := memStrobe (s.input board) (s.top.instr imem)
  memWrite := (controls (s.input board) (s.top.instr imem)).memWrite
  address := s.top.addressM imem (s.input board)
  dataIn := s.top.writeDataM imem (s.input board)
  slave := board.slave

def clock : System where
  top := s.top.clock imem (s.input board)
  converter := s.converter.clock board.slave (s.top.addressM imem (s.input board))
    (s.top.writeDataM imem (s.input board)) (s.top.memControlNegedge imem (s.input board)).drw
    s.top.memControl.axiStart

/-- The memory port of the board. -/
def port : Port := ⟨s.top.memControl, s.converter⟩

end Signals

end System

section Run

variable (imem : Ram) (board : Nat → BoardInput) (rf : RegArray) (powerUp : Converter)

/-- The state in each clock cycle after both resets. -/
def systemRun : Nat → System := run (System.clock imem) board ⟨.reset rf, powerUp.reset⟩

/-- What `top` is given in each cycle. -/
def systemInput (n : Nat) : Input := (systemRun imem board rf powerUp n).input (board n)

/-- What the port is given in each cycle. -/
def systemPort (n : Nat) : PortInput := (systemRun imem board rf powerUp n).portInput imem (board n)

/-- `top` run on these inputs. -/
abbrev systemTop : Nat → Top := topRun imem (systemInput imem board rf powerUp) rf

/-- It is the `top` of the system. -/
theorem systemRun_top (n : Nat) :
    (systemRun imem board rf powerUp n).top = systemTop imem board rf powerUp n := by
  induction n with
  | zero => rfl
  | succ n ih =>
    change (systemRun imem board rf powerUp n).top.clock imem _ =
      Top.clock imem _ (systemTop imem board rf powerUp n)
    rw [ih]
    rfl

/-- The port of the system is the port run on what it is given. -/
theorem systemRun_port (n : Nat) : (systemRun imem board rf powerUp n).port =
    portRun (systemPort imem board rf powerUp) powerUp n := by
  induction n with
  | zero => rfl
  | succ n ih =>
    change (systemRun imem board rf powerUp n).port.clock
        (systemPort imem board rf powerUp n) = Port.clock _ (portRun _ _ n)
    rw [ih]

/-- The updates of the program counter in the first `n` cycles. -/
def retired : Nat → Nat
  | 0 => 0
  | n + 1 => retired n + ((systemRun imem board rf powerUp n).top.pcReady imem
      (systemInput imem board rf powerUp n)).toNat

variable {imem board rf powerUp} {s n : Nat} {i : Instr}

theorem memControl_port (n : Nat) :
    (portRun (systemPort imem board rf powerUp) powerUp n).memControl =
      (systemTop imem board rf powerUp n).memControl := by
  rw [← systemRun_port, ← systemRun_top]
  rfl

/-- `readDataM` is `data_out`. -/
theorem readDataM_port (n : Nat) : (systemInput imem board rf powerUp n).readDataM =
    (portRun (systemPort imem board rf powerUp) powerUp n).converter.dataOut := by
  rw [← systemRun_port]
  rfl

/-- The program counter is updated on the edge that leads to an idle `MemControl`. -/
theorem pcReady_iff (n : Nat) : (systemTop imem board rf powerUp n).pcReady imem
      (systemInput imem board rf powerUp n) = true ↔
    (systemTop imem board rf powerUp (n + 1)).memControl = .idle :=
  Board.MemState.done_iff _

/-- As long as `MemControl` is busy the core waits. -/
theorem waits_of_busy (before : s ≤ n) (busy : ∀ j, s < j → j ≤ n →
      (systemTop imem board rf powerUp j).memControl ≠ .idle) :
    Waits imem (systemInput imem board rf powerUp) rf s n := by
  refine ⟨before, fun j after earlier => Bool.eq_false_iff.mpr (fun ready => ?_)⟩
  exact busy (j + 1) (by omega) (by omega) ((pcReady_iff j).mp ready)

theorem retired_waits (waits : Waits imem (systemInput imem board rf powerUp) rf s n) :
    retired imem board rf powerUp n = retired imem board rf powerUp s := by
  obtain ⟨after, waiting⟩ := waits
  induction n, after using Nat.le_induction with
  | base => rfl
  | succ n after ih =>
    have held := waiting n after (Nat.lt_succ_self n)
    rw [retired, systemRun_top, held]
    exact ih (fun j later earlier => waiting j later (Nat.lt_succ_of_lt earlier))

/-- From one idle cycle of `MemControl` to the next one, one instruction is retired. -/
theorem retired_next (waits : Waits imem (systemInput imem board rf powerUp) rf s n)
    (ready : (systemTop imem board rf powerUp n).pcReady imem
      (systemInput imem board rf powerUp n) = true) :
    retired imem board rf powerUp (n + 1) = retired imem board rf powerUp s + 1 := by
  rw [retired, systemRun_top, ready, retired_waits waits]
  rfl

section Requests

/-- The core shows its address and its word to the port. -/
theorem request_shown (n : Nat) : (systemPort imem board rf powerUp n).address =
      (systemTop imem board rf powerUp n).addressM imem (systemInput imem board rf powerUp n) ∧
    (systemPort imem board rf powerUp n).dataIn =
      (systemTop imem board rf powerUp n).writeDataM imem (systemInput imem board rf powerUp n) := by
  rw [← systemRun_top]
  exact ⟨rfl, rfl⟩

/-- Loads and stores ask for a transaction of their kind, and nothing else asks for one. -/
theorem request_kind (here : (systemTop imem board rf powerUp n).executes imem = some i) :
    (systemPort imem board rf powerUp n).mStrobe = isMemory i ∧
      (systemPort imem board rf powerUp n).memWrite = isStore i := by
  rw [← systemRun_top] at here
  have enc := encodes_of_decode here
  exact ⟨memStrobe_decoded _ enc, memWrite_decoded _ enc⟩

end Requests

end Run

section Prompt

/-- A slave that takes everything at once and answers in the next cycle. -/
def promptSlave (t : Taken) (m : SlaveMem) : SlaveInput where
  undef := default
  awready := true
  wready := true
  bvalid := decide (t.b < t.aw ∧ t.b < t.w)
  arready := true
  rvalid := decide (t.r < t.ar)
  rlast := true
  rdata := m.ram (wordIndex m.araddr)

/-- The board together with what the slave has taken and stored. -/
structure Loop where
  system : System
  taken : Taken
  mem : SlaveMem

def Loop.board (l : Loop) : BoardInput := ⟨false, promptSlave l.taken l.mem⟩

def Loop.clock (imem : Ram) (l : Loop) : Loop where
  system := l.system.clock imem l.board
  taken := l.taken.count l.board.slave l.system.converter
  mem := l.mem.next l.board.slave l.system.converter

variable (imem : Ram) (rf : RegArray) (powerUp : Converter) (ram : Ram)

def loopRun : Nat → Loop
  | 0 => ⟨⟨.reset rf, powerUp.reset⟩, ⟨0, 0, 0, 0, 0⟩, ⟨ram, 0, 0, 0⟩⟩
  | n + 1 => (loopRun n).clock imem

/-- What the prompt slave drives in each cycle. -/
def promptBoard (n : Nat) : BoardInput := (loopRun imem rf powerUp ram n).board

/-- The loop is the system with its own slave. -/
theorem loopRun_eq (n : Nat) : loopRun imem rf powerUp ram n =
    ⟨systemRun imem (promptBoard imem rf powerUp ram) rf powerUp n,
      Board.taken (systemPort imem (promptBoard imem rf powerUp ram) rf powerUp) powerUp n,
      Board.slaveMem (systemPort imem (promptBoard imem rf powerUp ram) rf powerUp) powerUp ram
        n⟩ := by
  induction n with
  | zero => rfl
  | succ n ih =>
    have converter := congrArg Port.converter
      (systemRun_port imem (promptBoard imem rf powerUp ram) rf powerUp n)
    have board : (loopRun imem rf powerUp ram n).board = promptBoard imem rf powerUp ram n := rfl
    rw [loopRun, Loop.clock, board, ih, Board.taken, Board.slaveMem, ← converter]
    rfl

theorem promptBoard_eq (n : Nat) : (promptBoard imem rf powerUp ram n).slave = promptSlave
    (Board.taken (systemPort imem (promptBoard imem rf powerUp ram) rf powerUp) powerUp n)
    (Board.slaveMem (systemPort imem (promptBoard imem rf powerUp ram) rf powerUp) powerUp ram
      n) := by
  rw [promptBoard, loopRun_eq]
  rfl

theorem prompt_slave : MemorySlave (systemPort imem (promptBoard imem rf powerUp ram) rf powerUp)
    powerUp ram := by
  have slave := promptBoard_eq imem rf powerUp ram
  refine ⟨fun n => ?_, fun n _ => congrArg SlaveInput.rdata (slave n)⟩
  change Board.Due (promptBoard imem rf powerUp ram n).slave _
  rw [slave]
  exact ⟨of_decide_eq_true, of_decide_eq_true⟩

theorem prompt_responsive :
    Responsive (systemPort imem (promptBoard imem rf powerUp ram) rf powerUp) powerUp := by
  have slave := promptBoard_eq imem rf powerUp ram
  refine ⟨fun n _ => ⟨n, Nat.le_refl n, rfl⟩, fun n _ => ⟨n, Nat.le_refl n, rfl⟩,
    fun n _ => ⟨n, Nat.le_refl n, rfl⟩, fun n address word => ⟨n, Nat.le_refl n, ?_⟩,
    fun n owed => ⟨n, Nat.le_refl n, ?_⟩, fun n driven untaken => ?_, fun n driven untaken => ?_⟩
  · exact (congrArg SlaveInput.bvalid (slave n)).trans (decide_eq_true ⟨address, word⟩)
  · exact (congrArg SlaveInput.rvalid (slave n)).trans (decide_eq_true owed)
  · -- what was due is still due
    have owed := of_decide_eq_true ((congrArg SlaveInput.bvalid (slave n)).symm.trans driven)
    refine (congrArg SlaveInput.bvalid (slave (n + 1))).trans (decide_eq_true ?_)
    simp only [Board.taken, Taken.count, untaken, Bool.toNat_false]
    omega
  · have owed := of_decide_eq_true ((congrArg SlaveInput.rvalid (slave n)).symm.trans driven)
    refine (congrArg SlaveInput.rvalid (slave (n + 1))).trans (decide_eq_true ?_)
    simp only [Board.taken, Taken.count, untaken, Bool.toNat_false]
    omega

end Prompt

end RiscvLab.SingleBoard
