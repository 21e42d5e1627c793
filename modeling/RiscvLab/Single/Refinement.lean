import RiscvLab.Single.Memory

/-!
# The single-cycle core refines the sequential machine

One clock cycle is one instruction. The conditions are asked of the sequential run: the
sums of `jalr` are even, accesses are aligned and inside `dmem`, and a byte stored to the
highest lane of a word has bits that all equal the lowest bit of the byte it replaces.
-/
namespace RiscvLab.Single
open RiscvLab.Lib.ByteMemory RiscvLab.Lib.Run RiscvLab.Hdl RiscvLab.Rv32i

section Relation

/-- The machine stands for an architectural state. -/
structure Top.Represents (s : Top) (a : Arch) : Prop where
  pc : s.core.pc = a.pc
  regs : Regs.ofArray s.core.rf = a.regs
  mem : s.Holds a.mem

/-- The bits of a byte stored to the highest lane all equal the lowest bit of the byte in
memory. -/
def TopByteEven (a : Arch) (i : Instr) : Prop :=
  ∀ r1 r2 imm, i = .store .sb r1 r2 imm → laneOf (a.regs.get r1 + imm) = 3 →
    (a.regs.get r2).extractLsb' 0 8 =
      BitVec.fill 8 ((a.mem (a.regs.get r1 + imm)).getLsbD 0)

/-- What is asked of an instruction that the sequential machine reaches. -/
structure Supported (imem : Ram) (a : Arch) : Prop where
  inside : (indexOf a.pc).toNat < imemDepth
  legal : ∃ i, fetch imem a = some i ∧ JalrEven a i ∧ DataOk dmemDepth a i ∧ TopByteEven a i

end Relation

section Step

variable {imem : Ram} {x : Undef} {s : Top} {a : Arch} {i : Instr}

/-- The state of the core next to the bytes of the architecture. -/
theorem Top.Represents.core_arch (h : s.Represents a) : s.core.arch a.mem = a := by
  rw [Core.arch, h.pc, h.regs]

theorem Top.Represents.executes (h : s.Represents a) (inside : (indexOf a.pc).toNat < imemDepth) :
    s.executes imem x = fetch imem a := by
  rw [Top.executes, Top.instr, ramRead, h.pc]
  exact congrArg decode (if_pos inside)

/-- Addresses depend on the registers alone. -/
theorem Top.Represents.access_eq (h : s.Represents a) : access s.arch i = access a i := by
  have regs : s.arch.regs = a.regs := h.regs
  cases i with
  | load | store => simp only [access, regs]
  | reg | imm | branch | jal | jalr | lui | auipc => rfl

theorem Top.Represents.dataOk (h : s.Represents a) (ok : DataOk dmemDepth a i) :
    DataOk dmemDepth s.arch i := by
  intro size address accessed
  rw [h.access_eq] at accessed
  exact ok size address accessed

/-- The word that is read is the one that the load addresses. -/
theorem Top.Represents.loadOk (h : s.Represents a) (legal : s.executes imem x = some i)
    (ok : DataOk dmemDepth a i) : LoadOk (s.core.arch a.mem) (s.readData imem x) i := by
  rw [h.core_arch]
  intro op d r1 imm same
  subst same
  obtain ⟨aligned, inside⟩ := ok _ _ rfl
  refine ⟨aligned, ?_⟩
  have accessed : access s.arch (.load op d r1 imm) = some (op.size, a.regs.get r1 + imm) :=
    h.access_eq
  rw [readData_eq legal (h.dataOk ok) accessed, h.mem _ inside]

/-- The lowest bit of the byte in the highest lane. -/
theorem highest_bit (mem : Word → Byte) (address : Word) (highest : laneOf address = 3) :
    (wordAt (n := 30) mem (indexOf address)).getLsbD 24 = (mem address).getLsbD 0 := by
  have byte : byteOf (wordAt (n := 30) mem (indexOf address)) 3 = mem address := by
    rw [byteOf_wordAt, ← highest, split_address]
  rw [← byte, byteOf, BitVec.getLsbD_extractLsb']
  rfl

theorem Top.Represents.topByteOk (h : s.Represents a) (ok : DataOk dmemDepth a i)
    (even : TopByteEven a i) : TopByteOk s i := by
  have regs : s.arch.regs = a.regs := h.regs
  intro r1 r2 imm store highest
  rw [regs] at highest ⊢
  subst store
  obtain ⟨-, inside⟩ := ok _ _ rfl
  rw [h.mem _ inside, highest_bit a.mem _ highest]
  exact even r1 r2 imm rfl highest

/-- One clock cycle does one instruction. -/
theorem Top.Represents.clock (h : s.Represents a) (ok : Supported imem a) (x : Undef) :
    (s.clock imem x).Represents (step imem a) := by
  obtain ⟨i, here, even, data, topByte⟩ := ok.legal
  have legal : s.executes imem x = some i := (h.executes ok.inside).trans here
  have enc := encodes_of_decode legal
  have next : step imem a = execute a i := by rw [step, here]
  rw [next]
  refine ⟨?_, ?_, ?_⟩
  · calc (s.clock imem x).core.pc
        = rawNextPc (s.core.arch a.mem) i := Core.pcNext_eq x s.core a.mem enc
      _ = rawNextPc a i := by rw [h.core_arch]
      _ = nextPc a i := (rawNextPc_eq_iff a i).mpr even
  · have regs := Core.clock_regs x s.core enc (h.loadOk legal data)
    rw [h.core_arch] at regs
    exact regs
  · have holds := (clock_holds_iff legal (h.dataOk data) h.mem).mpr (h.topByteOk data topByte)
    rw [h.core_arch] at holds
    exact holds

end Step

section Run

/-- The sequential machine started on the same registers and data. -/
def seqInit (rf : RegArray) (dmem : Ram) : Arch := ⟨0, .ofArray rf, bytesOf (n := 30) dmem⟩

variable {imem : Ram} {rf : RegArray} {dmem : Ram}

theorem reset_represents (rf : RegArray) (dmem : Ram) :
    (Top.reset rf dmem).Represents (seqInit rf dmem) :=
  ⟨rfl, rfl, fun index _ => (wordAt_bytesOf dmem index).symm⟩

/-- One clock cycle for each supported instruction. -/
theorem represents_after {n : Nat} (x : Nat → Undef)
    (supported : ∀ k < n, Supported imem (seqRun imem (seqInit rf dmem) k)) :
    (topRun imem x rf dmem n).Represents (seqRun imem (seqInit rf dmem) n) := by
  induction n with
  | zero => exact reset_represents rf dmem
  | succ n ih =>
    have before := ih (fun k earlier => supported k (Nat.lt_succ_of_lt earlier))
    exact before.clock (supported n (Nat.lt_succ_self n)) (x n)

/-- As long as the sequential run is supported (legal instructions inside `imem`, even sums of
`jalr`, aligned data inside the 1029 words of `dmem`, and bytes for the highest lane as
`TopByteEven` asks), the core is after `n` clock cycles where the sequential machine is after
`n` instructions: program counter, registers and memory. -/
theorem topRun_represents {N : Nat} (x : Nat → Undef)
    (supported : ∀ k < N, Supported imem (seqRun imem (seqInit rf dmem) k)) :
    ∀ n ≤ N, (topRun imem x rf dmem n).Represents (seqRun imem (seqInit rf dmem) n) := by
  intro n within
  exact represents_after x (fun k before => supported k (Nat.lt_of_lt_of_le before within))

/-- The sequential run of the byte that is stored to the highest lane. -/
def topByteSeq : Nat → Arch :=
  seqRun (topByteProgram true) (seqInit (fun _ => 0) (fun _ => 0x01000000))

/-- A byte of ones is stored over a byte whose lowest bit is set. -/
theorem topRun_represents_ones : (topByteRun true 0x01000000 3).Represents (topByteSeq 3) := by
  refine topRun_represents (fun _ => default) (fun k before => ?_) 3 (Nat.le_refl 3)
  have inside : ∀ k < 3, (indexOf (topByteSeq k).pc).toNat < imemDepth := by decide +kernel
  have fetched : ∀ k < 3,
      fetch (topByteProgram true) (topByteSeq k) = some (topByteInstr true k) := by
    decide +kernel
  have data : ∀ k < 3, DataOk dmemDepth (topByteSeq k) (topByteInstr true k) := by
    decide +kernel
  refine ⟨inside k before, _, fetched k before, ?_, data k before, ?_⟩
  · intro d r1 imm jalr
    match k, before with
    | 0, _ | 1, _ | 2, _ => cases jalr
  · intro r1 r2 imm store highest
    match k, before with
    | 0, _ | 2, _ => cases store
    | 1, _ =>
      cases store
      decide +kernel

end Run

end RiscvLab.Single
