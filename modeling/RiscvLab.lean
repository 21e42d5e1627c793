import RiscvLab.Lib.Run
import RiscvLab.Lib.Schedule
import RiscvLab.Lib.Windows
import RiscvLab.Lib.ByteMemory
import RiscvLab.Lib.BlockCopy
import RiscvLab.Lib.Subtraction
import RiscvLab.Lib.ShiftRegister
import RiscvLab.Rv32i.Encoding
import RiscvLab.Rv32i.Machine
import RiscvLab.Rv32i.Lanes
import RiscvLab.Hdl.Blocks
import RiscvLab.Hdl.Comparison
import RiscvLab.Hdl.Registers
import RiscvLab.Hdl.Lanes
import RiscvLab.Hdl.Immediates
import RiscvLab.Pipelined.Core
import RiscvLab.Pipelined.Forwarding
import RiscvLab.Pipelined.Top
import RiscvLab.Pipelined.Alu
import RiscvLab.Pipelined.MemoryUnits
import RiscvLab.Pipelined.Decode
import RiscvLab.Pipelined.Contents
import RiscvLab.Pipelined.Execute
import RiscvLab.Pipelined.Simulation
import RiscvLab.Pipelined.Refinement
import RiscvLab.Pipelined.Timing
import RiscvLab.Pipelined.Auipc
import RiscvLab.Pipelined.Operands
import RiscvLab.Pipelined.Agreement
import RiscvLab.Board.MemControl
import RiscvLab.Board.Controller
import RiscvLab.Board.Lockstep
import RiscvLab.Board.Transactions
import RiscvLab.Board.Loads
import RiscvLab.Board.Converter
import RiscvLab.Board.Stores
import RiscvLab.Single.Core
import RiscvLab.Single.Decode
import RiscvLab.Single.Registers
import RiscvLab.Single.Control
import RiscvLab.Single.Memory
import RiscvLab.Cores.Alu
import RiscvLab.Pipelined.MemoryPath
import RiscvLab.SingleBoard.Handshake
import RiscvLab.SingleBoard.Wait
import RiscvLab.Board.Burst
import RiscvLab.Board.Handshake
import RiscvLab.Fir.Reference
import RiscvLab.Lib.FixedPoint
import RiscvLab.Fir.Accuracy
import RiscvLab.Fir.Lowpass
import RiscvLab.Fir.Assembly
import RiscvLab.Fir.Loops
import RiscvLab.Fir.Termination
import RiscvLab.Lib.WordArray
import RiscvLab.Fir.Refinement
import RiscvLab.Lib.DoubleWord
import RiscvLab.Lib.ShiftAdd
import RiscvLab.Rv32i.Blocks
import RiscvLab.Multiply.Loop
import RiscvLab.Sum.Call
import RiscvLab.Cores.Agreement
import RiscvLab.Cores.Programs
import RiscvLab.Board.Precise
import RiscvLab.Board.Programs
import RiscvLab.Board.Memory
import RiscvLab.Board.Progress
import RiscvLab.SingleBoard.Refinement
import RiscvLab.SingleBoard.Programs
import RiscvLab.Runtime.BarrierProgress
import RiscvLab.Runtime.Readback
import RiscvLab.Runtime.Counters
import RiscvLab.Runtime.Strings
import RiscvLab.Runtime.Trap
import RiscvLab.Runtime.Verdict
import RiscvLab.Runtime.Uart
import RiscvLab.Runtime.Lfsr
