import RiscvLab.Single.Refinement
import RiscvLab.SingleBoard.System

/-!
# The board refines the sequential machine

With a memory behind the bus that answers when it likes, the board is where the sequential
machine is each time `MemControl` is idle. The conditions are asked of the sequential run:
only whole words are stored, since `readDataM` is not the word that a narrow store keeps, and
a load does not overwrite its own base register, which it would do while it waits.
-/
namespace RiscvLab.SingleBoard
open RiscvLab.Lib.ByteMemory RiscvLab.Lib.Run RiscvLab.Lib.Windows RiscvLab.Hdl RiscvLab.Rv32i
open RiscvLab.Single
open RiscvLab.Board (MemState Converter portRun SlaveMem slaveMem MemorySlave axiAddress Responsive)

section Relation

/-- Words of `imem`, `RAM[63:0]`. -/
def imemDepth : Nat := 64

/-- Only words are stored, and no load has its base register as its destination. -/
def OnBoard : Instr → Prop
  | .load _ d r1 _ => d = 0 ∨ d ≠ r1
  | .store op .. => op = .sw
  | _ => True

/-- What is asked of an instruction that the sequential machine reaches. -/
structure Supported (imem : Ram) (a : Arch) : Prop where
  inside : (indexOf a.pc).toNat < imemDepth
  legal : ∃ i, fetch imem a = some i ∧ JalrEven a i ∧
    (∀ size address, access a i = some (size, address) → Aligned size address) ∧ OnBoard i

/-- The words behind the bus are those of the memory. -/
def HoldsWords (ram : Ram) (mem : Word → Byte) : Prop :=
  ∀ address, ram (wordIndex (axiAddress address)) = wordAt (n := 30) mem (indexOf address)

/-- The board stands for an architectural state. -/
structure Represents (s : Top) (ram : Ram) (a : Arch) : Prop where
  pc : s.core.pc = a.pc
  regs : Regs.ofArray s.core.rf = a.regs
  mem : HoldsWords ram a.mem

/-- The words behind the bus as the core numbers them. -/
def boardWords (ram : Ram) : Ram := fun index => ram (wordIndex (axiAddress (index ++ 0#2)))

/-- The words of the bus are numbered from 0x40000 on. -/
theorem axi_index_iff (a b : Word) :
    wordIndex (axiAddress a) = wordIndex (axiAddress b) ↔ indexOf a = indexOf b := by
  have la := a.isLt
  have lb := b.isLt
  simp only [wordIndex, indexOf, axiAddress, ← BitVec.toNat_inj, BitVec.extractLsb'_toNat,
    BitVec.toNat_add, Nat.shiftRight_eq_div_pow]
  change (1048576 + a.toNat) % 4294967296 / 4 % 1073741824 =
    (1048576 + b.toNat) % 4294967296 / 4 % 1073741824 ↔
    a.toNat / 4 % 1073741824 = b.toNat / 4 % 1073741824
  omega

theorem boardWords_indexOf (ram : Ram) (address : Word) :
    boardWords ram (indexOf address) = ram (wordIndex (axiAddress address)) := by
  have same : indexOf (indexOf address ++ 0#2) = indexOf address := by
    unfold indexOf
    ext i hi
    grind
  rw [boardWords, (axi_index_iff _ _).mpr same]

theorem reset_represents (rf : RegArray) (ram : Ram) :
    Represents (Top.reset rf) ram (seqInit rf (boardWords ram)) := by
  refine ⟨rfl, rfl, fun address => ?_⟩
  rw [seqInit, wordAt_bytesOf, boardWords_indexOf]

end Relation

section Clock

variable {imem : Ram} {t : Input} {s : Top} {ram : Ram} {a : Arch} {i : Instr}

theorem Represents.executes (h : Represents s ram a) : s.executes imem = fetch imem a := by
  rw [Top.executes, Top.instr, h.pc]
  rfl

/-- With `PCReady` one cycle of the board is one cycle of the core. -/
theorem clock_core (ready : s.pcReady imem t = true) :
    (s.clock imem t).core = s.core.clock t.undef (s.instr imem) t.readDataM := by
  rw [Top.clock, ready, controls_eq]
  rfl

/-- The instruction is done in the cycle in which the program counter is updated. -/
theorem clock_ready (mem : Word → Byte) (legal : s.executes imem = some i)
    (ready : s.pcReady imem t = true) (even : JalrEven (s.core.arch mem) i)
    (loads : LoadOk (s.core.arch mem) t.readDataM i) :
    (s.clock imem t).core.pc = (execute (s.core.arch mem) i).pc ∧
      Regs.ofArray (s.clock imem t).core.rf = (execute (s.core.arch mem) i).regs := by
  have enc := encodes_of_decode legal
  rw [clock_core ready]
  refine ⟨?_, Core.clock_regs t.undef s.core enc loads⟩
  exact (Core.pcNext_eq t.undef s.core mem enc).trans ((rawNextPc_eq_iff _ _).mpr even)

/-- While a load waits only its destination changes. -/
theorem clock_load_kept {op : LoadOp} {d r1 : Reg} {imm : Word}
    (here : s.executes imem = some (.load op d r1 imm)) {r : Reg} (other : r ≠ d) :
    regRead (s.clock imem t).core.rf r = regRead s.core.rf r := by
  have enc := encodes_of_decode here
  have written : (s.clock imem t).core.rf = regWrite s.core.rf
      (controls t (s.instr imem)).regWrite (rd (s.instr imem)) _ := rfl
  rw [written, regRead, regRead, regWrite_apply, ← enc.2.2.1]
  simp [other]

/-- A store of a word passes on its second operand. -/
theorem writeDataM_word {r1 r2 : Reg} {imm : Word}
    (here : s.executes imem = some (.store .sw r1 r2 imm)) :
    s.writeDataM imem t = regRead s.core.rf r2 := by
  rw [writeDataM_store here]
  have kind : storeOp (funct3 (s.instr imem)) = some .sw := (encodes_of_decode here).2.1
  unfold storeOp at kind
  split at kind <;> cases kind
  rename_i word
  rw [word]
  rfl

end Clock

section Window

variable {imem : Ram} {board : Nat → BoardInput} {rf : RegArray} {powerUp : Converter} {ram : Ram}
  {s n : Nat} {a : Arch}

/-- The words behind the bus in each cycle. -/
abbrev systemRam (imem : Ram) (board : Nat → BoardInput) (rf : RegArray) (powerUp : Converter)
    (ram : Ram) (n : Nat) : Ram :=
  (slaveMem (systemPort imem board rf powerUp) powerUp ram n).ram

section Kept

variable {op : LoadOp} {d r1 r2 : Reg} {imm : Word}

theorem load_kept (waits : Waits imem (systemInput imem board rf powerUp) rf s n)
    (here : (systemTop imem board rf powerUp s).executes imem = some (.load op d r1 imm)) {r : Reg}
    (other : r ≠ d) : regRead (systemTop imem board rf powerUp n).core.rf r =
      regRead (systemTop imem board rf powerUp s).core.rf r := by
  obtain ⟨after, waiting⟩ := waits
  induction n, after using Nat.le_induction with
  | base => rfl
  | succ n after ih =>
    have earlier : Waits imem (systemInput imem board rf powerUp) rf s n :=
      ⟨after, fun j later sooner => waiting j later (Nat.lt_succ_of_lt sooner)⟩
    exact (clock_load_kept (earlier.executes.trans here) other).trans (ih earlier.2)

/-- A load that does not overwrite its base register keeps it. -/
theorem base_kept (waits : Waits imem (systemInput imem board rf powerUp) rf s n)
    (here : (systemTop imem board rf powerUp s).executes imem = some (.load op d r1 imm))
    (onBoard : d = 0 ∨ d ≠ r1) : regRead (systemTop imem board rf powerUp n).core.rf r1 =
      regRead (systemTop imem board rf powerUp s).core.rf r1 := by
  by_cases zero : r1 = 0
  · subst zero
    rfl
  · refine load_kept waits here (fun same => ?_)
    rcases onBoard with none | other
    · exact zero (same.trans none)
    · exact other same.symm

theorem store_kept (waits : Waits imem (systemInput imem board rf powerUp) rf s n)
    {kind : StoreOp}
    (here : (systemTop imem board rf powerUp s).executes imem = some (.store kind r1 r2 imm)) :
    (systemTop imem board rf powerUp n).core.rf = (systemTop imem board rf powerUp s).core.rf := by
  obtain ⟨after, waiting⟩ := waits
  induction n, after using Nat.le_induction with
  | base => rfl
  | succ n after ih =>
    have earlier : Waits imem (systemInput imem board rf powerUp) rf s n :=
      ⟨after, fun j later sooner => waiting j later (Nat.lt_succ_of_lt sooner)⟩
    exact (clock_store (earlier.executes.trans here)).trans (ih earlier.2)

end Kept

/-- What is known in the cycle in which an instruction begins. -/
structure Fresh (imem : Ram) (board : Nat → BoardInput) (rf : RegArray) (powerUp : Converter)
    (ram : Ram) (a : Arch) (i : Instr) (s : Nat) : Prop where
  slave : MemorySlave (systemPort imem board rf powerUp) powerUp ram
  idle : (systemTop imem board rf powerUp s).memControl = .idle
  represents : Represents (systemTop imem board rf powerUp s)
    (systemRam imem board rf powerUp ram s) a
  here : fetch imem a = some i

/-- `MemControl` is busy from the next cycle to cycle `n`, and idle after that. -/
structure Busy (imem : Ram) (board : Nat → BoardInput) (rf : RegArray) (powerUp : Converter)
    (s n : Nat) : Prop where
  after : s < n
  busy : ∀ j, s < j → j ≤ n → (systemTop imem board rf powerUp j).memControl ≠ .idle
  back : (systemTop imem board rf powerUp (n + 1)).memControl = .idle

section Step

variable {i : Instr}

theorem Fresh.executes (h : Fresh imem board rf powerUp ram a i s) :
    (systemTop imem board rf powerUp s).executes imem = some i :=
  h.represents.executes.trans h.here

theorem Fresh.regs (h : Fresh imem board rf powerUp ram a i s) (r : Reg) :
    regRead (systemTop imem board rf powerUp s).core.rf r = a.regs.get r := by
  rw [regRead_eq, h.represents.regs]

theorem Busy.waits (w : Busy imem board rf powerUp s n) {m : Nat} (after : s ≤ m) (before : m ≤ n) :
    Waits imem (systemInput imem board rf powerUp) rf s m :=
  waits_of_busy after (fun j later within => w.busy j later (Nat.le_trans within before))

/-- What the access of a load or store has done in its last cycle and after it. -/
theorem Fresh.accessed (h : Fresh imem board rf powerUp ram a i s) (memory : isMemory i = true)
    (w : Busy imem board rf powerUp s n) :
    Board.Accessed (isStore i)
        ((systemTop imem board rf powerUp (s + 1)).addressM imem
          (systemInput imem board rf powerUp (s + 1)))
        ((systemTop imem board rf powerUp (s + 1)).writeDataM imem
          (systemInput imem board rf powerUp (s + 1)))
        (systemRam imem board rf powerUp ram s)
        (portRun (systemPort imem board rf powerUp) powerUp n).converter
        (slaveMem (systemPort imem board rf powerUp) powerUp ram n) ∧
      Board.Accessed (isStore i)
        ((systemTop imem board rf powerUp (s + 1)).addressM imem
          (systemInput imem board rf powerUp (s + 1)))
        ((systemTop imem board rf powerUp (s + 1)).writeDataM imem
          (systemInput imem board rf powerUp (s + 1)))
        (systemRam imem board rf powerUp ram s)
        (portRun (systemPort imem board rf powerUp) powerUp (n + 1)).converter
        (slaveMem (systemPort imem board rf powerUp) powerUp ram (n + 1)) := by
  obtain ⟨strobe, write⟩ := request_kind h.executes
  obtain ⟨address, word⟩ := @request_shown imem board rf powerUp (s + 1)
  rw [← address, ← word, ← write]
  have access := Board.port_access h.slave ((memControl_port s).trans h.idle)
    (strobe.trans memory) w.after
    (fun j later within => memControl_port j ▸ w.busy j later within)
    ((memControl_port (n + 1)).trans w.back)
  exact ⟨access.1, access.2.1⟩

/-- A load brings the word that the sequential machine loads. -/
theorem Fresh.load {op : LoadOp} {d r1 : Reg} {imm : Word}
    (h : Fresh imem board rf powerUp ram a (.load op d r1 imm) s)
    (w : Busy imem board rf powerUp s n) (aligned : Aligned op.size (a.regs.get r1 + imm))
    (onBoard : d = 0 ∨ d ≠ r1) :
    Represents (systemTop imem board rf powerUp (n + 1))
      (systemRam imem board rf powerUp ram (n + 1)) (execute a (.load op d r1 imm)) := by
  have whole := w.waits (Nat.le_of_lt w.after) (Nat.le_refl n)
  have here := whole.executes.trans h.executes
  have base :
      (Regs.ofArray (systemTop imem board rf powerUp n).core.rf).get r1 = a.regs.get r1 := by
    rw [← regRead_eq, base_kept whole h.executes onBoard, h.regs]
  have address : (systemTop imem board rf powerUp (s + 1)).addressM imem
      (systemInput imem board rf powerUp (s + 1)) = a.regs.get r1 + imm := by
    have first := w.waits (Nat.le_succ s) w.after
    rw [addressM_load (first.executes.trans h.executes), base_kept first h.executes onBoard, h.regs]
  obtain ⟨last, after⟩ := h.accessed rfl w
  have word : (systemInput imem board rf powerUp n).readDataM =
      wordAt (n := 30) a.mem (indexOf (a.regs.get r1 + imm)) := by
    rw [readDataM_port, last.read rfl, address, h.represents.mem]
  have loads : LoadOk ((systemTop imem board rf powerUp n).core.arch a.mem)
      (systemInput imem board rf powerUp n).readDataM (.load op d r1 imm) := by
    intro op' d' r1' imm' same
    cases same
    rw [Core.arch, base]
    exact ⟨aligned, word⟩
  obtain ⟨pc, regs⟩ := clock_ready a.mem here ((pcReady_iff n).mpr w.back)
    (fun _ _ _ impossible => by cases impossible) loads
  refine ⟨pc.trans ?_, regs.trans ?_, ?_⟩
  · change (systemTop imem board rf powerUp n).core.pc + 4 = a.pc + 4
    rw [whole.pc, h.represents.pc]
  · ext1 r
    change (if r = d ∧ d ≠ 0 then loadResult op a.mem
        ((Regs.ofArray (systemTop imem board rf powerUp n).core.rf).get r1 + imm)
      else (Regs.ofArray (systemTop imem board rf powerUp n).core.rf).get r) =
      if r = d ∧ d ≠ 0 then loadResult op a.mem (a.regs.get r1 + imm) else a.regs.get r
    rw [base]
    split
    · rfl
    · rename_i other
      by_cases dest : r = d
      · have zero : r = 0 := by
          by_contra nonzero
          exact other ⟨dest, dest ▸ nonzero⟩
        rw [zero, Regs.x0, Regs.x0]
      · rw [← regRead_eq, load_kept whole h.executes dest, h.regs]
  · intro other
    rw [systemRam, after.kept rfl]
    exact h.represents.mem other

/-- A store puts the word behind the bus where the sequential machine stores it. -/
theorem Fresh.store {r1 r2 : Reg} {imm : Word}
    (h : Fresh imem board rf powerUp ram a (.store .sw r1 r2 imm) s)
    (w : Busy imem board rf powerUp s n) (aligned : Aligned 4 (a.regs.get r1 + imm)) :
    Represents (systemTop imem board rf powerUp (n + 1))
      (systemRam imem board rf powerUp ram (n + 1)) (execute a (.store .sw r1 r2 imm)) := by
  have whole := w.waits (Nat.le_of_lt w.after) (Nat.le_refl n)
  have here := whole.executes.trans h.executes
  have first := w.waits (Nat.le_succ s) w.after
  have shown := first.executes.trans h.executes
  have address : (systemTop imem board rf powerUp (s + 1)).addressM imem
      (systemInput imem board rf powerUp (s + 1)) = a.regs.get r1 + imm := by
    rw [addressM_store shown, store_kept first h.executes, h.regs]
  have word : (systemTop imem board rf powerUp (s + 1)).writeDataM imem
      (systemInput imem board rf powerUp (s + 1)) = a.regs.get r2 := by
    rw [writeDataM_word shown, store_kept first h.executes, h.regs]
  obtain ⟨pc, regs⟩ := clock_ready a.mem here ((pcReady_iff n).mpr w.back)
    (fun _ _ _ impossible => by cases impossible) (fun _ _ _ _ impossible => by cases impossible)
  refine ⟨pc.trans ?_, regs.trans ?_, fun other => ?_⟩
  · change (systemTop imem board rf powerUp n).core.pc + 4 = a.pc + 4
    rw [whole.pc, h.represents.pc]
  · change Regs.ofArray (systemTop imem board rf powerUp n).core.rf = a.regs
    rw [store_kept whole h.executes, h.represents.regs]
  · have stored := (h.accessed rfl w).2.stored rfl
    rw [address, word] at stored
    rw [systemRam, stored]
    change _ = wordAt (n := 30) (storeBytes (n := 30) a.mem _ 4 _) _
    rw [wordAt_store_word _ _ _ aligned]
    by_cases same : indexOf other = indexOf (a.regs.get r1 + imm)
    · rw [if_pos same, (axi_index_iff _ _).mpr same, Function.update_self]
    · rw [if_neg same, Function.update_of_ne (fun index => same ((axi_index_iff _ _).mp index))]
      exact h.represents.mem other

/-- What is no load or store is done in one cycle. -/
theorem Fresh.other (h : Fresh imem board rf powerUp ram a i s) (other : isMemory i = false)
    (even : JalrEven a i) :
    (systemTop imem board rf powerUp (s + 1)).memControl = .idle ∧
      Represents (systemTop imem board rf powerUp (s + 1))
        (systemRam imem board rf powerUp ram (s + 1)) (execute a i) := by
  obtain ⟨strobe, -⟩ := request_kind h.executes
  obtain ⟨idle, same, -, -⟩ := Board.port_idle h.slave ((memControl_port s).trans h.idle)
    (strobe.trans other)
  have back := (memControl_port (s + 1)).symm.trans idle
  have arch : (systemTop imem board rf powerUp s).core.arch a.mem = a := by
    rw [Core.arch, h.represents.pc, h.represents.regs]
  obtain ⟨pc, regs⟩ := clock_ready (t := systemInput imem board rf powerUp s) a.mem h.executes
    ((pcReady_iff s).mpr back) (by rwa [arch]) (by
      rintro op d r1 imm rfl
      cases other)
  rw [arch] at pc regs
  refine ⟨back, pc, regs, fun address => ?_⟩
  have kept : (execute a i).mem = a.mem := by
    cases i with
    | store => cases other
    | load | reg | imm | branch | jal | jalr | lui | auipc => rfl
  rw [kept, systemRam, same]
  exact h.represents.mem address

/-- The next idle cycle of `MemControl` shows the next state of the sequential machine. -/
theorem Fresh.next {m : Nat} (h : Fresh imem board rf powerUp ram a i s) (even : JalrEven a i)
    (aligned : ∀ size address, access a i = some (size, address) → Aligned size address)
    (onBoard : OnBoard i) (after : s < m)
    (back : (systemTop imem board rf powerUp m).memControl = .idle)
    (busy : ∀ j, s < j → j < m → (systemTop imem board rf powerUp j).memControl ≠ .idle) :
    Represents (systemTop imem board rf powerUp m) (systemRam imem board rf powerUp ram m)
      (execute a i) := by
  cases memory : isMemory i with
  | false =>
    obtain ⟨idle, next⟩ := h.other memory even
    have soon : m = s + 1 := by
      by_contra later
      exact busy (s + 1) (by omega) (by omega) idle
    rw [soon]
    exact next
  | true =>
    have leaves : m ≠ s + 1 := by
      rintro rfl
      have started : (systemTop imem board rf powerUp (s + 1)).memControl =
          MemState.startOf (isStore i) := by
        change (systemTop imem board rf powerUp s).memControlNegedge imem _ = _
        rw [negedge_decoded h.executes, h.idle, memory, Board.MemState.next_idle]
      exact (Board.MemState.busy_states _).1 (started.symm.trans back)
    obtain ⟨n, rfl⟩ : ∃ n, m = n + 1 := ⟨m - 1, by omega⟩
    have window : Busy imem board rf powerUp s n :=
      ⟨by omega, fun j later within => busy j later (by omega), back⟩
    cases i with
    | load op d r1 imm => exact h.load window (aligned _ _ rfl) onBoard
    | store op r1 r2 imm =>
      obtain rfl : op = .sw := onBoard
      exact h.store window (aligned _ _ rfl)
    | reg | imm | branch | jal | jalr | lui | auipc => cases memory

/-- One more instruction is retired there. -/
theorem retired_back {m : Nat} (after : s < m)
    (back : (systemTop imem board rf powerUp m).memControl = .idle)
    (busy : ∀ j, s < j → j < m → (systemTop imem board rf powerUp j).memControl ≠ .idle) :
    retired imem board rf powerUp m = retired imem board rf powerUp s + 1 := by
  obtain ⟨n, rfl⟩ : ∃ n, m = n + 1 := ⟨m - 1, by omega⟩
  have waits : Waits imem (systemInput imem board rf powerUp) rf s n :=
    waits_of_busy (by omega) (fun j later within => busy j later (by omega))
  exact retired_next waits ((pcReady_iff n).mpr back)

end Step

end Window

section Run

variable {imem : Ram} {board : Nat → BoardInput} {rf : RegArray} {powerUp : Converter} {ram : Ram}
  {N : Nat}

/-- Where `MemControl` is idle the board stands for the state before the next instruction. -/
theorem idle_represents (slave : MemorySlave (systemPort imem board rf powerUp) powerUp ram)
    (supported : ∀ k < N, Supported imem (seqRun imem (seqInit rf (boardWords ram)) k)) :
    ∀ n, (systemTop imem board rf powerUp n).memControl = .idle →
      retired imem board rf powerUp n ≤ N →
      Represents (systemTop imem board rf powerUp n) (systemRam imem board rf powerUp ram n)
        (seqRun imem (seqInit rf (boardWords ram)) (retired imem board rf powerUp n)) := by
  refine marked_induction rfl (fun _ => reset_represents rf ram)
    (fun s m idle back after busy ih => ?_)
  rw [retired_back after back busy]
  intro within
  obtain ⟨i, here, even, aligned, onBoard⟩ := (supported _ within).legal
  have fresh : Fresh imem board rf powerUp ram _ i s :=
    ⟨slave, idle, ih (Nat.le_of_lt within), here⟩
  rw [seqRun_succ here]
  exact fresh.next even aligned onBoard after back busy

/-- Whatever the delays of the memory: each time `MemControl` is idle, the program counter,
the registers and the words behind the bus are those of the sequential machine after as many
instructions as the program counter has been updated. The program is in the 64 words of
`imem`, its data are aligned and no sum of `jalr` is odd; of the stores it has only `sw`, and
a load does not overwrite its base register (`OnBoard`). -/
theorem systemRun_represents (slave : MemorySlave (systemPort imem board rf powerUp) powerUp ram)
    (supported : ∀ k < N, Supported imem (seqRun imem (seqInit rf (boardWords ram)) k)) {n : Nat}
    (idle : (systemRun imem board rf powerUp n).top.memControl = .idle)
    (within : retired imem board rf powerUp n ≤ N) :
    Represents (systemRun imem board rf powerUp n).top (systemRam imem board rf powerUp ram n)
      (seqRun imem (seqInit rf (boardWords ram)) (retired imem board rf powerUp n)) := by
  rw [systemRun_top] at idle ⊢
  exact idle_represents slave supported n idle within

/-- The load of `loadProgram` and the branch behind it. -/
theorem loadProgram_supported : ∀ k < 2,
    Supported loadProgram
      (seqRun loadProgram (seqInit (fun _ => 0) (boardWords fun _ => 7)) k) := by
  intro k before
  match k, before with
  | 0, _ =>
    refine ⟨by decide, .load .lw 1 0 0, by decide, fun _ _ _ jalr => (nomatch jalr),
      fun size address accessed => ?_, .inr (by decide)⟩
    cases accessed
    decide
  | 1, _ =>
    exact ⟨by decide, .branch .beq 0 0 0, by decide, fun _ _ _ jalr => (nomatch jalr),
      fun _ _ accessed => (nomatch accessed), trivial⟩

/-- The load of a word from a memory full of sevens, in cycle 10. -/
theorem systemRun_represents_load :
    regRead (systemRun loadProgram (promptBoard loadProgram (fun _ => 0) default (fun _ => 7))
      (fun _ => 0) default 10).top.core.rf 1 = 7 := by
  have represents := systemRun_represents (prompt_slave loadProgram (fun _ => 0) default fun _ => 7)
    loadProgram_supported (n := 10) (by decide +kernel) (by decide +kernel)
  rw [regRead_eq, represents.regs]
  decide +kernel

/-- `MemControl` comes back to idle. -/
theorem idle_again (slave : MemorySlave (systemPort imem board rf powerUp) powerUp ram)
    (responsive : Responsive (systemPort imem board rf powerUp) powerUp) {s : Nat}
    (idle : (systemTop imem board rf powerUp s).memControl = .idle) :
    ∃ m, s < m ∧ (systemTop imem board rf powerUp m).memControl = .idle := by
  have here := (memControl_port s).trans idle
  cases strobe : (systemPort imem board rf powerUp s).mStrobe with
  | false =>
    exact ⟨s + 1, Nat.lt_succ_self s,
      (memControl_port _).symm.trans (Board.port_idle slave here strobe).1⟩
  | true =>
    obtain ⟨m, later, rest, -⟩ := Board.request_finished slave.compliant responsive here strobe
    exact ⟨m, later, (memControl_port m).symm.trans rest.1⟩

/-- Every number of instructions is reached. -/
theorem retired_reaches (slave : MemorySlave (systemPort imem board rf powerUp) powerUp ram)
    (responsive : Responsive (systemPort imem board rf powerUp) powerUp) (k : Nat) :
    ∃ n, (systemTop imem board rf powerUp n).memControl = .idle ∧
      retired imem board rf powerUp n = k := by
  induction k with
  | zero => exact ⟨0, rfl, rfl⟩
  | succ k ih =>
    obtain ⟨s, idle, count⟩ := ih
    obtain ⟨m, after, back, busy⟩ := first_after (idle_again slave responsive idle)
    exact ⟨m, back, (retired_back after back busy).trans (congrArg (· + 1) count)⟩

/-- If the memory answers some time, every supported instruction is retired, and the board
then stands for the state that it leads to. Supported are the programs in 64 words with
aligned data and even sums of `jalr` of which the instructions are `OnBoard`. -/
theorem every_instruction (slave : MemorySlave (systemPort imem board rf powerUp) powerUp ram)
    (responsive : Responsive (systemPort imem board rf powerUp) powerUp)
    (supported : ∀ k < N, Supported imem (seqRun imem (seqInit rf (boardWords ram)) k)) :
    ∀ k ≤ N, ∃ n, (systemRun imem board rf powerUp n).top.memControl = .idle ∧
      retired imem board rf powerUp n = k ∧
      Represents (systemRun imem board rf powerUp n).top (systemRam imem board rf powerUp ram n)
        (seqRun imem (seqInit rf (boardWords ram)) k) := by
  intro k within
  obtain ⟨n, idle, rfl⟩ := retired_reaches slave responsive k
  have represents := idle_represents slave supported n idle within
  rw [← systemRun_top] at idle represents
  exact ⟨n, idle, rfl, represents⟩

/-- The branch is retired with the loaded word in its register. -/
theorem every_instruction_load : ∃ n,
    retired loadProgram (promptBoard loadProgram (fun _ => 0) default (fun _ => 7)) (fun _ => 0)
      default n = 2 ∧
    regRead (systemRun loadProgram (promptBoard loadProgram (fun _ => 0) default (fun _ => 7))
      (fun _ => 0) default n).top.core.rf 1 = 7 := by
  obtain ⟨n, -, count, represents⟩ := every_instruction
    (prompt_slave loadProgram (fun _ => 0) default fun _ => 7)
    (prompt_responsive loadProgram (fun _ => 0) default fun _ => 7) loadProgram_supported 2
    (Nat.le_refl 2)
  refine ⟨n, count, ?_⟩
  rw [regRead_eq, represents.regs]
  decide +kernel

end Run

end RiscvLab.SingleBoard
