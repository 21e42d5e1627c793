import RiscvLab.Cores.Programs
import RiscvLab.SingleBoard.Refinement

/-!
# The Fibonacci program on the board

What `fib.memfile` leaves behind the bus, for any number of steps and any memory that answers
some time.
-/
namespace RiscvLab.SingleBoard
open RiscvLab.Lib.ByteMemory RiscvLab.Hdl RiscvLab.Rv32i RiscvLab.Single RiscvLab.Fib
open RiscvLab.Board (MemorySlave Converter Responsive axiAddress)

section Supported

variable {imem : Ram} {count : Word} {s a : Arch}

/-- What the core of the simulation supports is supported on the board if it is in its smaller
`imem` and one of its instructions. -/
theorem supported_of_core (core : Single.Supported imem a)
    (inside : (indexOf a.pc).toNat < imemDepth)
    (onBoard : ∀ i, fetch imem a = some i → OnBoard i) : Supported imem a := by
  obtain ⟨i, here, even, data, -⟩ := core.legal
  exact ⟨inside, i, here, even, fun size address accessed => (data size address accessed).1,
    onBoard i here⟩

theorem fib_onBoard (count : Word) : ∀ k < 14,
    ∃ i, (fibProgram count)[k]? = some i ∧ OnBoard i := by
  intro k before
  match k, before with
  | 0, _ | 1, _ | 2, _ | 3, _ | 4, _ | 5, _ | 6, _ | 7, _ | 8, _ | 9, _ | 10, _ =>
    exact ⟨_, rfl, trivial⟩
  | 11, _ | 12, _ => exact ⟨_, rfl, rfl⟩
  | 13, _ => exact ⟨_, rfl, .inr (by decide)⟩

theorem fib_supported (placed : Placed imem 0 (fibProgram count)) (here : s.pc = 0) :
    ∀ k < 6 * count.toNat + 9, Supported imem (seqRun imem s k) := by
  intro k before
  obtain ⟨t, lines, walk, below, length, -⟩ := fib_run placed here
  rw [← length] at before
  have pc := Rv32i.walks_pc walk before
  have line := below _ (List.getElem_mem before)
  have depth : ∀ k < 14, (indexOf (lineAddress 0 k)).toNat < imemDepth := by decide
  obtain ⟨i, inProgram, onBoard⟩ := fib_onBoard count _ line
  rw [length] at before
  refine supported_of_core (Cores.fib_supported placed here k before).toSupported
    (by rw [pc]; exact depth _ line) (fun j fetched => ?_)
  cases (placed.fetch inProgram pc).symm.trans fetched
  exact onBoard

end Supported

section Run

variable {imem : Ram} {board : Nat → BoardInput} {rf : RegArray} {powerUp : Converter} {ram : Ram}
  {count : Word}

/-- Whatever the memory holds and however long it takes: the board comes to the `ecall` of the
program with F[n] in `a0` and at 0x00100104 on the bus, with F[n+1] at 0x00100108, and with
every other word as it was. The program is in the 64 words of `imem`; it stores words only,
and its one load has another register as its base. -/
theorem fib_on_board (placed : Placed imem 0 (fibProgram count))
    (slave : MemorySlave (systemPort imem board rf powerUp) powerUp ram)
    (responsive : Responsive (systemPort imem board rf powerUp) powerUp) :
    ∃ n, (systemRun imem board rf powerUp n).top.core.pc = 56 ∧
      regRead (systemRun imem board rf powerUp n).top.core.rf a0 = fibWord count.toNat ∧
      ∀ index, systemRam imem board rf powerUp ram n index =
        if index = wordIndex 0x00100108 then fibWord (count.toNat + 1)
        else if index = wordIndex 0x00100104 then fibWord count.toNat
        else ram index := by
  obtain ⟨t, lines, walk, -, length, pc, number, words⟩ :=
    fib_run (s := seqInit rf (boardWords ram)) placed rfl
  have run := walk.run
  rw [length] at run
  obtain ⟨n, idle, count⟩ := retired_reaches slave responsive (6 * count.toNat + 9)
  have represents := idle_represents slave
    (fib_supported (s := seqInit rf (boardWords ram)) placed rfl) n idle (Nat.le_of_eq count)
  rw [count, run, ← systemRun_top] at represents
  refine ⟨n, represents.pc.trans pc, ?_, fun index => ?_⟩
  · rw [regRead_eq, represents.regs]
    exact number
  · -- every word of the bus has an address of the core
    obtain ⟨address, rfl⟩ : ∃ address, wordIndex (axiAddress address) = index :=
      ⟨(index ++ 0#2) - 0x00100000, by
        unfold axiAddress wordIndex
        rw [add_sub_cancel]
        ext i hi
        grind⟩
    have low : wordIndex (axiAddress address) = wordIndex 0x00100104 ↔ indexOf address = 0x41 :=
      axi_index_iff address 0x104
    have high : wordIndex (axiAddress address) = wordIndex 0x00100108 ↔ indexOf address = 0x42 :=
      axi_index_iff address 0x108
    rw [represents.mem, words, seqInit, wordAt_bytesOf, boardWords_indexOf]
    simp only [low, high]

end Run

/-- The image of the lab on a memory that answers in the next cycle. -/
theorem fib_on_board_image :
    ∃ n, regRead (systemRun (fibImage 0x26)
        (promptBoard (fibImage 0x26) (fun _ => 0) default (fun _ => 0)) (fun _ => 0) default
        n).top.core.rf a0 = 39088169 := by
  obtain ⟨n, -, number, -⟩ := fib_on_board (fibImage_placed 0x26)
    (prompt_slave (fibImage 0x26) (fun _ => 0) default (fun _ => 0))
    (prompt_responsive (fibImage 0x26) (fun _ => 0) default (fun _ => 0))
  exact ⟨n, number.trans (by decide)⟩

end RiscvLab.SingleBoard
