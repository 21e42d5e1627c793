import RiscvLab.Board.Controller

/-!
# The AXI converter

`AXI_Converter_v1_0_M00_AXI` for bursts of one word, between `top` and an AXI
slave, wired as in the block design: `trigger` is `AXIStart`, `write_nread` is
`DRW`, `address` and `data_in` are `addressM` and `writeDataM`, `data_out` is
`readDataM` and `done` is `doneM`. The error flags and the burst counters, which
reach nothing of this, are left out. With one word to a burst `read_index` is
always 0.
-/
namespace RiscvLab.Board
open RiscvLab.Lib.ByteMemory RiscvLab.Lib.Run RiscvLab.Hdl RiscvLab.Pipelined

/-- `mst_exec_state`. -/
inductive ExecState
  | idle
  | initWrite
  | initRead
  deriving DecidableEq, Repr, Inhabited

/-- What the slave drives in one cycle, and the `x` values of the core. -/
structure SlaveInput where
  undef : Undef
  awready : Bool
  wready : Bool
  bvalid : Bool
  arready : Bool
  rvalid : Bool
  rlast : Bool
  rdata : Word
  deriving Inhabited

/-- The registers of the converter just after a rising edge. -/
structure Converter where
  -- written on the falling edge
  initTxnFf : Bool
  initTxnFf2 : Bool
  axiAwaddr : Word
  axiAwvalid : Bool
  axiWdata : Word
  axiWlast : Bool
  axiWvalid : Bool
  axiBready : Bool
  axiAraddr : Word
  axiArvalid : Bool
  axiRready : Bool
  dataOut : Word
  startSingleBurstWrite : Bool
  startSingleBurstRead : Bool
  writesDone : Bool
  readsDone : Bool
  compareDone : Bool
  burstWriteActive : Bool
  burstReadActive : Bool
  mstExecState : ExecState
  deriving Inhabited

/-- The converter after its reset, which leaves the data registers as they are. -/
def Converter.reset (c : Converter) : Converter :=
  { c with
    initTxnFf := false
    initTxnFf2 := false
    axiAwvalid := false
    axiWlast := false
    axiWvalid := false
    axiBready := false
    axiArvalid := false
    axiRready := false
    startSingleBurstWrite := false
    startSingleBurstRead := false
    writesDone := false
    readsDone := false
    compareDone := true
    burstWriteActive := false
    burstReadActive := false
    mstExecState := .idle }

namespace Converter

/-- `init_txn_pulse` after the falling edge of the cycle, which reads `INIT_AXI_TXN`. -/
def initTxnPulse (initAxiTxn : Bool) (c : Converter) : Bool := !c.initTxnFf && initAxiTxn

/-- `M_AXI_AWADDR`. -/
def mAxiAwaddr (c : Converter) : Word := 0x00100000 + c.axiAwaddr

/-- One clock cycle: the falling edge, then the next rising edge. -/
def clock (slave : SlaveInput) (address dataIn : Word) (writeNread initAxiTxn : Bool)
    (c : Converter) : Converter :=
  let pulse := c.initTxnPulse initAxiTxn
  let wnext := slave.wready && c.axiWvalid
  let rnext := slave.rvalid && c.axiRready
  { initTxnFf := initAxiTxn
    initTxnFf2 := c.initTxnFf
    axiAwvalid :=
      if pulse then false
      else if !c.axiAwvalid && c.startSingleBurstWrite then true
      else if slave.awready && c.axiAwvalid then false
      else c.axiAwvalid
    axiAwaddr :=
      if pulse then address
      else if slave.awready && c.axiAwvalid then address
      else c.axiAwaddr
    axiWvalid :=
      if pulse then false
      else if !c.axiWvalid && c.startSingleBurstWrite then true
      else if wnext && c.axiWlast then false
      else c.axiWvalid
    -- C_M_AXI_BURST_LEN == 1
    axiWlast := if pulse then false else true
    axiWdata :=
      if pulse then dataIn
      else if wnext then dataIn
      else c.axiWdata
    axiBready :=
      if pulse then false
      else if slave.bvalid && !c.axiBready then true
      else if c.axiBready then false
      else c.axiBready
    axiArvalid :=
      if pulse then false
      else if !c.axiArvalid && c.startSingleBurstRead then true
      else if slave.arready && c.axiArvalid then false
      else c.axiArvalid
    axiAraddr :=
      if pulse then address
      else if slave.arready && c.axiArvalid then address
      else c.axiAraddr
    axiRready :=
      if pulse then false
      else if slave.rvalid then (if slave.rlast && c.axiRready then false else true)
      else c.axiRready
    dataOut :=
      if pulse then slave.rdata
      else if rnext then slave.rdata
      else c.dataOut
    mstExecState :=
      match c.mstExecState with
      | .idle => if pulse then (if writeNread then .initWrite else .initRead) else .idle
      | .initWrite => if c.writesDone then .idle else .initWrite
      | .initRead => if c.readsDone then .idle else .initRead
    compareDone :=
      match c.mstExecState with
      | .idle => if pulse then false else c.compareDone
      | .initWrite => if c.writesDone then true else c.compareDone
      | .initRead => if c.readsDone then true else c.compareDone
    startSingleBurstWrite :=
      match c.mstExecState with
      | .initWrite =>
        if c.writesDone then c.startSingleBurstWrite
        else !c.axiAwvalid && !c.startSingleBurstWrite && !c.burstWriteActive
      | _ => c.startSingleBurstWrite
    startSingleBurstRead :=
      match c.mstExecState with
      | .initRead =>
        if c.readsDone then c.startSingleBurstRead
        else !c.axiArvalid && !c.burstReadActive && !c.startSingleBurstRead
      | _ => c.startSingleBurstRead
    burstWriteActive :=
      if pulse then false
      else if c.startSingleBurstWrite then true
      else if slave.bvalid && c.axiBready then false
      else c.burstWriteActive
    writesDone :=
      if pulse then false
      else if slave.bvalid && c.axiBready then true
      else c.writesDone
    burstReadActive :=
      if pulse then false
      else if c.startSingleBurstRead then true
      else if rnext && slave.rlast then false
      else c.burstReadActive
    readsDone :=
      if pulse then false
      else if rnext then true
      else c.readsDone }

end Converter

/-- `top_0` and `AXI_Converter_0` of the block design. -/
structure System where
  top : Top
  converter : Converter

namespace System

section Signals

variable (imem : Ram) (slave : SlaveInput) (s : System)

def input : Input where
  undef := slave.undef
  doneM := s.converter.compareDone
  readDataM := s.converter.dataOut

def clock : System where
  top := s.top.clock imem (s.input slave)
  converter := s.converter.clock slave s.top.addressM (s.top.writeDataM (s.input slave))
    (s.top.memControlNegedge (s.input slave)).drw s.top.memControl.axiStart

end Signals

end System

section Run

variable (imem : Ram) (slave : Nat → SlaveInput) (rf : RegArray) (powerUp : Converter)

/-- The state in each clock cycle after both resets. -/
def systemRun : Nat → System := run (System.clock imem) slave ⟨.reset rf, powerUp.reset⟩

/-- What `top` is given in each cycle of a run of the system. -/
def systemInput (n : Nat) : Input := (systemRun imem slave rf powerUp n).input (slave n)

/-- The board's `top` runs in the system as it does on its own inputs. -/
theorem systemRun_top (n : Nat) : (systemRun imem slave rf powerUp n).top =
    topRun imem (systemInput imem slave rf powerUp) rf n := by
  induction n with
  | zero => rfl
  | succ n ih =>
    change (systemRun imem slave rf powerUp n).top.clock imem _ = Top.clock imem _ (topRun _ _ _ n)
    rw [ih]
    rfl

end Run

end RiscvLab.Board
