import RiscvLab.Board.MemControl
import RiscvLab.Lib.Run
import RiscvLab.Pipelined.Core

/-!
# The pipelined core on the board

`top` of lab3/lab3/src: the core of lab3_submission with `MemControl` between it
and the AXI converter. The core differs from the simulated one in the enable of
its PC register and in the strobe that follows a load or store down to M.
`MemControl` is clocked on the falling edge, in the middle of a cycle of the core.
-/
namespace RiscvLab.Board
open RiscvLab.Lib.ByteMemory RiscvLab.Lib.Run RiscvLab.Hdl RiscvLab.Pipelined

/-- Inputs of one clock cycle. `doneM` is read on the falling edge; `readDataM`
changes on rising edges only. -/
structure Input where
  undef : Undef
  doneM : Bool
  readDataM : Word
  deriving Inhabited

/-- The registers just after a rising edge. -/
@[ext]
structure Top where
  core : Core
  memStrobeE : Bool
  memStrobeM : Bool
  memControl : MemState

def Top.reset (rf : RegArray) : Top := ⟨.reset rf, false, false, .idle⟩

namespace Top

section Signals

variable (imem : Ram) (input : Input) (s : Top)

/-- The program is read at every word address, of which `imem` has the first 64. -/
def instrF : Word := imem (wordIndex s.core.pcF)

def memStrobeD : Bool := s.core.opD == 0b0000011 || s.core.opD == 0b0100011

def addressM : Word := s.core.regM.aluResultM

def writeDataM : Word := s.core.storeOutM input.undef input.readDataM

/-- `MemControl` after the falling edge of the cycle. -/
def memControlNegedge : MemState :=
  s.memControl.next s.memStrobeM s.core.controlregM.memWriteM input.doneM

def pcReady : Bool := (s.memControlNegedge input).done

def clock : Top where
  core := s.core.clock input.undef (!s.core.stallF || s.pcReady input) (s.instrF imem)
    input.readDataM
  memStrobeE := floprc false (s.core.flushE input.undef) s.memStrobeD
  memStrobeM := s.memStrobeE
  memControl := s.memControlNegedge input

end Signals

end Top

/-- The state in each clock cycle after reset. -/
def topRun (imem : Ram) (input : Nat → Input) (rf : RegArray) : Nat → Top :=
  run (Top.clock imem) input (Top.reset rf)

end RiscvLab.Board
