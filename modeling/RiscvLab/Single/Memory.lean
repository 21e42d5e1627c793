import RiscvLab.Single.Control

/-!
# Data memory of the single-cycle core

The words of `dmem` are the words of a byte-addressed little-endian memory. All
stores but one keep them so: a byte stored to the highest lane of a word arrives
one place too far left, above a bit of the byte that it replaces.
-/
namespace RiscvLab.Single
open RiscvLab.Lib.ByteMemory RiscvLab.Lib.Run RiscvLab.Hdl RiscvLab.Rv32i

section StoreUnit

variable (x : Undef) (w v : Word)

/-- The concatenation of the highest lane is a merge only for a byte whose bits
all equal the lowest bit of the byte it replaces. -/
theorem topByte_iff :
    (v.extractLsb' 0 8 ++ w.extractLsb' 0 25).setWidth 32 = mergeBytes w 3 1 v ↔
      v.extractLsb' 0 8 = BitVec.fill 8 (w.getLsbD 24) := by
  rw [← merge_byte3]
  constructor
  · intro same
    have bit : ∀ k, ((v.extractLsb' 0 8 ++ w.extractLsb' 0 25).setWidth 32).getLsbD (24 + k) =
        (v.extractLsb' 0 8 ++ w.extractLsb' 0 24).getLsbD (24 + k) := fun k => by rw [same]
    have lowest : w.getLsbD 24 = v.getLsbD 0 := by
      have here := bit 0
      simp only [BitVec.getLsbD_setWidth, BitVec.getLsbD_append, BitVec.getLsbD_extractLsb'] at here
      simpa using here
    have shifted : ∀ k, k + 1 < 8 → v.getLsbD k = v.getLsbD (k + 1) := by
      intro k hk
      have here := bit (k + 1)
      simp only [BitVec.getLsbD_setWidth, BitVec.getLsbD_append, BitVec.getLsbD_extractLsb'] at here
      grind
    have all : ∀ k, k < 8 → v.getLsbD k = w.getLsbD 24 := by
      intro k
      induction k with
      | zero => exact fun _ => lowest.symm
      | succ k ih => exact fun hk => (shifted k hk).symm.trans (ih (Nat.lt_of_succ_lt hk))
    ext i hi
    rw [BitVec.getElem_fill, BitVec.getElem_extractLsb', Nat.zero_add]
    exact all i hi
  · intro fill
    rw [fill]
    ext i hi
    grind

theorem writeLine_unit {f3 : BitVec 3} {op : StoreOp} {a : Word} (h : storeOp f3 = some op)
    (aligned : Aligned op.size a) (other : ¬ (op = .sb ∧ laneOf a = 3)) :
    writeLine x f3 a w v = mergeBytes w (laneOf a) op.size v := by
  unfold storeOp at h
  split at h <;> cases h
  · have lanes : ∀ lane : BitVec 2, lane ≠ 3 → lane = 0 ∨ lane = 1 ∨ lane = 2 := by decide
    unfold writeLine
    rcases lanes (laneOf a) (fun top => other ⟨rfl, top⟩) with lane | lane | lane <;>
      rw [lane] <;> unfold laneOf at lane <;> rw [lane]
    · exact merge_byte0 w v
    · exact merge_byte1 w v
    · exact merge_byte2 w v
  · exact storeHalf_eq w v x.storeLane (laneOf_half aligned)
  · rw [laneOf_word aligned]
    exact merge_word w v

end StoreUnit

/-- The words of `dmem` hold the bytes `mem`. -/
def Top.Holds (s : Top) (mem : Word → Byte) : Prop :=
  ∀ index : BitVec 30, index.toNat < dmemDepth → s.dmem index = wordAt (n := 30) mem index

/-- The bits of a byte stored to the highest lane all equal the lowest bit of
the byte that it replaces. -/
def TopByteOk (s : Top) (i : Instr) : Prop :=
  ∀ r1 r2 imm, i = .store .sb r1 r2 imm → laneOf (s.arch.regs.get r1 + imm) = 3 →
    (s.arch.regs.get r2).extractLsb' 0 8 =
      BitVec.fill 8 ((s.dmem (indexOf (s.arch.regs.get r1 + imm))).getLsbD 24)

section Step

variable {imem : Ram} {x : Undef} {s : Top} {mem : Word → Byte} {i : Instr}

theorem dataAdr_eq (legal : s.executes imem x = some i) {size : Nat} {address : Word}
    (ha : access s.arch i = some (size, address)) : s.dataAdr imem x = address :=
  Core.aluResult_access x s.core _ (encodes_of_decode legal) ha

theorem readData_eq (legal : s.executes imem x = some i) (ok : DataOk dmemDepth s.arch i)
    {size : Nat} {address : Word} (ha : access s.arch i = some (size, address)) :
    s.readData imem x = s.dmem (indexOf address) := by
  rw [Top.readData, dataAdr_eq legal ha]
  exact if_pos (ok size address ha).2

theorem writeData_eq {op : StoreOp} {r1 r2 : Reg} {imm : Word}
    (legal : s.executes imem x = some (.store op r1 r2 imm))
    (ok : DataOk dmemDepth s.arch (.store op r1 r2 imm)) : s.writeData imem x =
      writeLine x (funct3 (s.instr imem x)) (s.arch.regs.get r1 + imm)
        (s.dmem (indexOf (s.arch.regs.get r1 + imm))) (s.arch.regs.get r2) := by
  have enc := encodes_of_decode legal
  have word := readData_eq legal ok rfl
  have address : s.core.aluResult x (s.instr imem x) = s.arch.regs.get r1 + imm :=
    dataAdr_eq legal rfl
  obtain ⟨store, -, -, rfl, -⟩ := enc
  have opcode : (BitVec.extractLsb' 0 7 (s.instr imem x) == 0b0100011) = true := by
    rw [beq_iff_eq]
    exact store
  rw [Top.writeData, Core.writeData, opcode, address, word, Core.origWriteData_eq s.core]
  rfl

/-- The word stored is the architectural merge exactly if the highest lane comes out right. -/
theorem writeData_merge_iff {op : StoreOp} {r1 r2 : Reg} {imm : Word}
    (legal : s.executes imem x = some (.store op r1 r2 imm))
    (ok : DataOk dmemDepth s.arch (.store op r1 r2 imm)) :
    s.writeData imem x = mergeBytes (s.dmem (indexOf (s.arch.regs.get r1 + imm)))
        (laneOf (s.arch.regs.get r1 + imm)) op.size (s.arch.regs.get r2) ↔
      TopByteOk s (.store op r1 r2 imm) := by
  have kind := (encodes_of_decode legal).2.1
  have aligned := (ok _ _ rfl).1
  rw [writeData_eq legal ok]
  by_cases top : op = .sb ∧ laneOf (s.arch.regs.get r1 + imm) = 3
  · obtain ⟨rfl, lane⟩ := top
    have function : funct3 (s.instr imem x) = 0b000 := by
      revert kind
      generalize funct3 (s.instr imem x) = f3
      revert f3
      decide
    have unit : writeLine x (funct3 (s.instr imem x)) (s.arch.regs.get r1 + imm)
        (s.dmem (indexOf (s.arch.regs.get r1 + imm))) (s.arch.regs.get r2) =
        ((s.arch.regs.get r2).extractLsb' 0 8 ++
          (s.dmem (indexOf (s.arch.regs.get r1 + imm))).extractLsb' 0 25).setWidth 32 := by
      unfold laneOf at lane
      unfold writeLine
      rw [function, lane]
      rfl
    rw [unit, lane]
    change _ = mergeBytes _ 3 1 _ ↔ _
    rw [topByte_iff]
    refine ⟨fun fill r1' r2' imm' same _ => ?_, fun fill => fill r1 r2 imm rfl lane⟩
    cases same
    exact fill
  · refine iff_of_true (writeLine_unit x _ _ kind aligned top) (fun r1' r2' imm' same lane => ?_)
    cases same
    exact absurd ⟨rfl, lane⟩ top

/-- One clock cycle keeps `dmem` in step with the bytes exactly if the highest
lane comes out right. -/
theorem clock_holds_iff (legal : s.executes imem x = some i) (ok : DataOk dmemDepth s.arch i)
    (holds : s.Holds mem) :
    (s.clock imem x).Holds (memResult (s.core.arch mem) i) ↔ TopByteOk s i := by
  have enc := encodes_of_decode legal
  have write : (Core.controls x (s.instr imem x)).memWrite = _ :=
    congrArg Decoded.memWrite (Core.controls_decoded x enc)
  have clock : (s.clock imem x).dmem = ramWrite dmemDepth s.dmem (decoded i).memWrite
      (s.dataAdr imem x) (s.writeData imem x) := by
    rw [← write]
    rfl
  cases i with
  | store op r1 r2 imm =>
    obtain ⟨aligned, inside⟩ := ok _ _ rfl
    have stored : (s.clock imem x).dmem = Function.update s.dmem
        (indexOf (s.arch.regs.get r1 + imm)) (s.writeData imem x) := by
      rw [clock, dataAdr_eq legal rfl]
      exact if_pos (decide_eq_true inside)
    have bytes : ∀ other,
        wordAt (n := 30) (memResult (s.core.arch mem) (.store op r1 r2 imm)) other =
        if other = indexOf (s.arch.regs.get r1 + imm) then
          mergeBytes (wordAt (n := 30) mem (indexOf (s.arch.regs.get r1 + imm)))
            (laneOf (s.arch.regs.get r1 + imm)) op.size (s.arch.regs.get r2)
        else wordAt (n := 30) mem other :=
      fun other => wordAt_store mem (s.arch.regs.get r2) other aligned
    rw [← writeData_merge_iff legal ok, Top.Holds]
    constructor
    · intro next
      have here := next _ inside
      rwa [stored, bytes, Function.update_self, if_pos rfl, ← holds _ inside] at here
    · intro merged index within
      rw [stored, bytes]
      by_cases same : index = indexOf (s.arch.regs.get r1 + imm)
      · rw [same, Function.update_self, if_pos rfl, merged, holds _ inside]
      · rw [Function.update_of_ne same, if_neg same, holds _ within]
  | load | reg | imm | branch | jal | jalr | lui | auipc =>
    refine iff_of_true (fun index within => ?_) (fun _ _ _ same => by cases same)
    rw [clock]
    exact holds index within

/-- A load from words that hold the bytes writes the value of the bytes. -/
theorem clock_load {op : LoadOp} {d r1 : Reg} {imm : Word}
    (legal : s.executes imem x = some (.load op d r1 imm))
    (ok : DataOk dmemDepth s.arch (.load op d r1 imm)) (holds : s.Holds mem) :
    regRead (s.clock imem x).core.rf d =
      if d = 0 then 0 else loadResult op mem (s.arch.regs.get r1 + imm) := by
  obtain ⟨aligned, inside⟩ := ok _ _ rfl
  have loads : LoadOk (s.core.arch mem) (s.readData imem x) (.load op d r1 imm) := by
    intro op' d' r1' imm' same
    cases same
    refine ⟨aligned, ?_⟩
    rw [readData_eq legal ok rfl, holds _ inside]
    rfl
  have regs := Core.clock_regs x s.core (encodes_of_decode legal) loads
  rw [regRead_eq]
  refine (congrArg (fun file => file.get d) regs).trans ?_
  change (if d = d ∧ d ≠ 0 then _ else (s.core.arch mem).regs.get d) = _
  by_cases zero : d = 0
  · rw [if_neg (fun written => written.2 zero), if_pos zero, zero, Regs.x0]
  · rw [if_pos ⟨rfl, zero⟩, if_neg zero]
    rfl

end Step

section Run

variable (imem : Ram) (x : Nat → Undef) (rf : RegArray) (dmem : Ram)

/-- The byte array that the stores of a run make of the initial memory. -/
def byteRun : Nat → Word → Byte
  | 0 => bytesOf (n := 30) dmem
  | n + 1 => match (topRun imem x rf dmem n).executes imem (x n) with
    | some i => memResult ((topRun imem x rf dmem n).core.arch (byteRun n)) i
    | none => byteRun n

/-- After cycle `n` the data memory is the byte array, and a load has written
the value that it has there. -/
structure ByteAddressed (n : Nat) : Prop where
  holds : (topRun imem x rf dmem (n + 1)).Holds (byteRun imem x rf dmem (n + 1))
  loaded : ∀ op d r1 imm,
    (topRun imem x rf dmem n).executes imem (x n) = some (.load op d r1 imm) →
    regRead (topRun imem x rf dmem (n + 1)).core.rf d =
      if d = 0 then 0
      else loadResult op (byteRun imem x rf dmem n)
        ((topRun imem x rf dmem n).arch.regs.get r1 + imm)

variable {imem x rf dmem}

theorem byteRun_succ {n : Nat} {i : Instr}
    (legal : (topRun imem x rf dmem n).executes imem (x n) = some i) :
    byteRun imem x rf dmem (n + 1) =
      memResult ((topRun imem x rf dmem n).core.arch (byteRun imem x rf dmem n)) i := by
  rw [byteRun, legal]

theorem holds_zero : (topRun imem x rf dmem 0).Holds (byteRun imem x rf dmem 0) :=
  fun index _ => (wordAt_bytesOf dmem index).symm

theorem run_holds_iff {n : Nat} {i : Instr}
    (legal : (topRun imem x rf dmem n).executes imem (x n) = some i)
    (ok : DataOk dmemDepth (topRun imem x rf dmem n).arch i)
    (holds : (topRun imem x rf dmem n).Holds (byteRun imem x rf dmem n)) :
    (topRun imem x rf dmem (n + 1)).Holds (byteRun imem x rf dmem (n + 1)) ↔
      TopByteOk (topRun imem x rf dmem n) i := by
  rw [byteRun_succ legal]
  exact clock_holds_iff legal ok holds

/-- Over aligned accesses inside `dmem`, the memory of the single-cycle machine
is byte-addressed and little-endian as long as every byte stored to the highest
lane of a word has bits that all equal the lowest bit of the byte it replaces. -/
theorem byteAddressed_iff {N : Nat} (legal : ∀ n < N, ∃ i,
      (topRun imem x rf dmem n).executes imem (x n) = some i ∧
        DataOk dmemDepth (topRun imem x rf dmem n).arch i) :
    (∀ n < N, ByteAddressed imem x rf dmem n) ↔
      ∀ n < N, ∀ i, (topRun imem x rf dmem n).executes imem (x n) = some i →
        TopByteOk (topRun imem x rf dmem n) i := by
  constructor
  · intro refines n before i fetched
    obtain ⟨j, legalHere, ok⟩ := legal n before
    cases legalHere.symm.trans fetched
    have holds : (topRun imem x rf dmem n).Holds (byteRun imem x rf dmem n) := by
      cases n with
      | zero => exact holds_zero
      | succ n => exact (refines n (Nat.lt_of_succ_lt before)).holds
    exact (run_holds_iff fetched ok holds).mp (refines n before).holds
  · intro bytes
    have holds : ∀ n ≤ N, (topRun imem x rf dmem n).Holds (byteRun imem x rf dmem n) := by
      intro n
      induction n with
      | zero => exact fun _ => holds_zero
      | succ n ih =>
        intro within
        obtain ⟨i, fetched, ok⟩ := legal n within
        exact (run_holds_iff fetched ok (ih (Nat.le_of_succ_le within))).mpr
          (bytes n within i fetched)
    intro n before
    refine ⟨holds (n + 1) before, fun op d r1 imm fetched => ?_⟩
    obtain ⟨i, legalHere, ok⟩ := legal n before
    cases legalHere.symm.trans fetched
    exact clock_load fetched ok (holds n before.le)

end Run

/-- `x1` is set to -1 or to 0x12; then `sb x1, 3(x0)`, `lb x2, 3(x0)` and a loop. -/
def topByteProgram (ones : Bool) : Ram
  | 0 => if ones then 0xFFF00093 else 0x01200093
  | 1 => 0x001001A3
  | 2 => 0x00300103
  | _ => 0x0000006F

def topByteInstr (ones : Bool) : Nat → Instr
  | 0 => .imm .add 1 0 (if ones then 0xFFFFFFFF else 0x12)
  | 1 => .store .sb 0 1 3
  | 2 => .load .lb 2 0 3
  | _ => .jal 0 0

/-- The run over a memory filled with one word. -/
def topByteRun (ones : Bool) (fill : Word) : Nat → Top :=
  topRun (topByteProgram ones) (fun _ => default) (fun _ => 0) (fun _ => fill)

theorem topByteRun_executes (ones : Bool) : ∀ n < 3, (topByteRun ones 0x01000000 n).executes
    (topByteProgram ones) default = some (topByteInstr ones n) := by
  revert ones
  decide +kernel

theorem topByteRun_legal (ones : Bool) : ∀ n < 3, ∃ i,
    (topByteRun ones 0x01000000 n).executes (topByteProgram ones) default = some i ∧
      DataOk dmemDepth (topByteRun ones 0x01000000 n).arch i := by
  have ok : ∀ ones, ∀ n < 3,
      DataOk dmemDepth (topByteRun ones 0x01000000 n).arch (topByteInstr ones n) := by
    decide +kernel
  exact fun n before => ⟨_, topByteRun_executes ones n before, ok ones n before⟩

/-- A byte of ones arrives over a byte whose lowest bit is set. -/
theorem byteAddressed_iff_ones :
    regRead (topByteRun true 0x01000000 3).core.rf 2 = 0xFFFFFFFF ∧
    ∀ n < 3, ByteAddressed (topByteProgram true) (fun _ => default) (fun _ => 0)
      (fun _ => 0x01000000) n := by
  refine ⟨by decide +kernel,
    (byteAddressed_iff (topByteRun_legal true)).mpr (fun n before i fetched => ?_)⟩
  cases (topByteRun_executes true n before).symm.trans fetched
  intro r1 r2 imm same _
  match n, before with
  | 0, _ => cases same
  | 1, _ =>
    cases same
    decide +kernel
  | 2, _ => cases same

/-- Of the byte 0x12 the core stores 0x25, and the load returns that. -/
theorem byteAddressed_not :
    (∀ n < 3, ∃ i, (topByteRun false 0x01000000 n).executes (topByteProgram false) default =
      some i ∧ DataOk dmemDepth (topByteRun false 0x01000000 n).arch i) ∧
    regRead (topByteRun false 0x01000000 3).core.rf 2 = 0x25 ∧
    ¬ ∀ n < 3, ByteAddressed (topByteProgram false) (fun _ => default) (fun _ => 0)
      (fun _ => 0x01000000) n := by
  refine ⟨topByteRun_legal false, by decide +kernel, fun refines => ?_⟩
  have stored := (refines 1 (by decide)).holds 0 (by decide)
  revert stored
  decide +kernel

end RiscvLab.Single
