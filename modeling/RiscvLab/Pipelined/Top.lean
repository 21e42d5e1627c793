import RiscvLab.Lib.Run
import RiscvLab.Pipelined.Core
import RiscvLab.Rv32i.Lanes

/-!
# The simulated system of the pipelined core

`top` of lab3/hdl: `riscv` with an instruction and a data memory, run from reset.
The writes of the W and M stages are its observable events. The drained register
file and data memory are what the instructions in W and M will leave behind.
-/
namespace RiscvLab.Pipelined
open RiscvLab.Lib.ByteMemory RiscvLab.Lib.Run RiscvLab.Hdl RiscvLab.Rv32i

/-- Words in `imem` and in `dmem`, `RAM[16384:0]`. -/
def depth : Nat := 16385

structure Top where
  core : Core
  dmem : Ram

namespace Top

section Signals

variable (imem : Ram) (x : Undef) (s : Top)

def instrF : Word := ramRead depth imem x.instr s.core.pcF

def readDataM : Word := ramRead depth s.dmem x.data s.core.regM.aluResultM

/-- The word on the write port of `dmem`. -/
def writeDataM : Word := s.core.storeOutM x (s.readDataM x)

/-- The data memory after the rising edge that ends the cycle. -/
def nextDmem : Ram :=
  ramWrite depth s.dmem s.core.controlregM.memWriteM s.core.regM.aluResultM (s.writeDataM x)

def clock : Top where
  core := s.core.clock x (!s.core.stallF) (s.instrF imem x) (s.readDataM x)
  dmem := s.nextDmem x

/-- The register write of the W stage; entry 0 of the array is not a register. -/
def regWrites : List (Reg × Word) :=
  if s.core.regWriteW && s.core.regW.rdW != 0 then [(s.core.regW.rdW, s.core.resultW)] else []

/-- The memory write of the M stage. -/
def memWrites : List (BitVec 30 × Word) :=
  if s.core.controlregM.memWriteM then [(wordIndex s.core.regM.aluResultM, s.writeDataM x)] else []

end Signals

def reset (rf : RegArray) (dmem : Ram) : Top := ⟨.reset rf, dmem⟩

end Top

section Runs

variable (imem : Ram) (x : Nat → Undef) (rf : RegArray) (dmem : Ram)

/-- The state in each clock cycle after reset. -/
def topRun : Nat → Top := run (Top.clock imem) x (Top.reset rf dmem)

/-- The register writes done in the W stage in the first `n` cycles. -/
def topRegTrace : Nat → List (Reg × Word) :=
  trace (fun _ s => s.regWrites) (Top.clock imem) x (Top.reset rf dmem)

/-- The memory writes done in the M stage in the first `n` cycles. -/
def topMemTrace : Nat → List (BitVec 30 × Word) :=
  trace Top.memWrites (Top.clock imem) x (Top.reset rf dmem)

/-- The sequential machine started on the same registers and data. -/
def seqInit : Arch := ⟨0, .ofArray rf, bytesOf (n := 30) dmem⟩

end Runs

namespace Top

section Drained

variable (imem : Ram) (x : Undef) (s : Top)

def resultM : Word := s.core.resultM x (s.readDataM x)

def drainedRf : RegArray := s.core.drainedRf x (s.readDataM x)

/-- The register write of the instruction in M. -/
def regWritesM : List (Reg × Word) :=
  if s.core.controlregM.regWriteM && s.core.regM.rdM != 0 then
    [(s.core.regM.rdM, s.resultM x)]
  else []

theorem clock_rfNegedge : (s.clock imem x).core.rfNegedge = s.drainedRf x := rfl

end Drained

end Top

end RiscvLab.Pipelined
