import RiscvLab.Cores.Agreement
import RiscvLab.Fib.Loop
import RiscvLab.Multiply.Loop

/-!
# Programs on the two cores

A program that has been verified on the sequential machine does the same on both cores
once its instructions are known to be supported. For straight arithmetic and branches that
is read off the program text; accesses to memory need their addresses.
-/
namespace RiscvLab.Cores
open RiscvLab.Lib.ByteMemory RiscvLab.Lib.Run RiscvLab.Hdl RiscvLab.Rv32i

section Paths

/-- A stretch of a program that is inside `imem`. -/
structure Fits (base : Word) (length : Nat) : Prop where
  aligned : Aligned 4 base
  inside : (indexOf base).toNat + length ≤ Single.imemDepth

instance (base : Word) (length : Nat) : Decidable (Fits base length) :=
  decidable_of_iff (Aligned 4 base ∧ (indexOf base).toNat + length ≤ Single.imemDepth)
    ⟨fun h => ⟨h.1, h.2⟩, fun h => ⟨h.aligned, h.inside⟩⟩

theorem Fits.line {length k : Nat} (fits : Fits base length) (within : k < length) :
    Aligned 4 (lineAddress base k) ∧ (indexOf (lineAddress base k)).toNat < Single.imemDepth := by
  obtain ⟨aligned, inside⟩ := fits
  have index : (indexOf base).toNat = base.toNat / 4 := by
    rw [indexOf, BitVec.extractLsb'_toNat, Nat.shiftRight_eq_div_pow]
    have bound := base.isLt
    omega
  have small : base.toNat + 4 * k < 2 ^ 32 := by
    unfold Single.imemDepth at inside
    omega
  have address : (lineAddress base k).toNat = base.toNat + 4 * k := by
    rw [lineAddress, BitVec.toNat_add, BitVec.toNat_ofNat]
    omega
  refine ⟨?_, ?_⟩
  · unfold Aligned at aligned ⊢
    omega
  · rw [indexOf, BitVec.extractLsb'_toNat, Nat.shiftRight_eq_div_pow, address]
    omega

end Paths

section Supported

variable {imem : Ram} {base : Word} {program : List Instr} {s t a : Arch} {i : Instr}
  {lines : List Nat}

/-- Neither a `jalr` nor an `auipc` nor a byte store. -/
def simple : Instr → Bool
  | .jalr .. | .auipc .. | .store .sb .. => false
  | _ => true

theorem supported_of (here : fetch imem a = some i) (aligned : Aligned 4 a.pc)
    (inside : (indexOf a.pc).toNat < Single.imemDepth) (isSimple : simple i = true)
    (data : DataOk Single.dmemDepth a i) : Supported imem a := by
  refine ⟨⟨inside, i, here, ?_, data, ?_⟩, aligned, fun j fetched => ?_⟩
  · intro d r1 imm jalr
    subst jalr
    cases isSimple
  · intro r1 r2 imm store
    subst store
    cases isSimple
  · cases here.symm.trans fetched
    cases i <;> first | rfl | cases isSimple

/-- Without access to memory. -/
def plain : Instr → Bool
  | .load .. | .store .. => false
  | i => simple i

theorem simple_of_plain (isPlain : plain i = true) : simple i = true := by
  cases i <;> first | rfl | cases isPlain

theorem dataOk_of_plain {depth : Nat} (isPlain : plain i = true) : DataOk depth a i := by
  intro size address accessed
  cases i with
  | load | store => cases isPlain
  | reg | imm | branch | jal | jalr | lui | auipc => cases accessed

/-- A walk through plain lines is supported. -/
theorem supported_walk (placed : Placed imem base program) (fits : Fits base program.length)
    (walk : Walks imem base s t lines)
    (plainLines : ∀ k ∈ lines, ∃ i, program[k]? = some i ∧ plain i = true) :
    ∀ k < lines.length, Supported imem (seqRun imem s k) := by
  intro k inside
  have pc := walks_pc walk inside
  obtain ⟨i, line, isPlain⟩ := plainLines _ (List.getElem_mem inside)
  obtain ⟨aligned, within⟩ := fits.line (List.getElem?_eq_some_iff.mp line).1
  rw [← pc] at aligned within
  exact supported_of (placed.fetch line pc) aligned within (simple_of_plain isPlain)
    (dataOk_of_plain isPlain)

/-- Two stretches of a run. -/
theorem supported_add {j k : Nat} (first : ∀ m < j, Supported imem (seqRun imem s m))
    (rest : ∀ m < k, Supported imem (seqRun imem (seqRun imem s j) m)) :
    ∀ m < j + k, Supported imem (seqRun imem s m) := by
  intro m before
  by_cases early : m < j
  · exact first m early
  · have later := rest (m - j) (by omega)
    rwa [← seqRun_add, Nat.add_sub_cancel' (by omega)] at later

end Supported

section Fib

open Fib

variable {imem : Ram} {rf : RegArray} {dmem : Ram} {count : Word} {s : Arch} {n : Nat}

/-- Up to `finish` the program does not touch the memory. -/
theorem fib_plain (count : Word) : ∀ k < 11,
    ∃ i, (fibProgram count)[k]? = some i ∧ plain i = true := by
  intro k before
  match k, before with
  | 0, _ | 1, _ | 2, _ | 3, _ | 4, _ | 5, _ | 6, _ | 7, _ | 8, _ | 9, _ | 10, _ =>
    exact ⟨_, rfl, rfl⟩

/-- The stores and the load behind `finish` are at 0x104 and 0x108. -/
theorem fib_finish (placed : Placed imem 0 (fibProgram count)) (here : s.pc = lineAddress 0 11)
    (passing : Passing n 0 s) : ∀ k < 3, Supported imem (seqRun imem s k) := by
  have first : s.regs.get t4 + 0 = 0x104 := by rw [passing.address]; rfl
  have second : s.regs.get t4 + 4 = 0x108 := by rw [passing.address]; rfl
  have ok : ∀ k i (a : Arch), k < 14 → (fibProgram count)[k]? = some i →
      a.pc = lineAddress 0 k → simple i = true → DataOk Single.dmemDepth a i →
      Supported imem a := by
    intro k i a before line pc isSimple data
    have address := (show Fits 0 14 by decide).line before
    rw [← pc] at address
    exact supported_of (placed.fetch line pc) address.1 address.2 isSimple data
  have one : seqRun imem s 1 = execute s (.store .sw t4 t0 0) :=
    seqRun_succ (k := 0) (placed.fetch (k := 11) rfl here)
  have pcOne : (seqRun imem s 1).pc = lineAddress 0 12 := by
    rw [one, pc_of_straight rfl, here]
    exact (lineAddress_succ 0 11).symm
  have two : seqRun imem s 2 = execute (seqRun imem s 1) (.store .sw t4 t1 4) :=
    seqRun_succ (k := 1) (placed.fetch (k := 12) rfl pcOne)
  have pcTwo : (seqRun imem s 2).pc = lineAddress 0 13 := by
    rw [two, pc_of_straight rfl, pcOne]
    exact (lineAddress_succ 0 12).symm
  intro k before
  match k, before with
  | 0, _ =>
    refine ok 11 _ s (by decide) rfl here rfl (fun size address accessed => ?_)
    cases accessed
    rw [first]
    decide
  | 1, _ =>
    refine ok 12 _ _ (by decide) rfl pcOne rfl (fun size address accessed => ?_)
    rw [one] at accessed
    cases accessed
    change Aligned 4 (s.regs.get t4 + 4) ∧ (indexOf (s.regs.get t4 + 4)).toNat < _
    rw [second]
    decide
  | 2, _ =>
    refine ok 13 _ _ (by decide) rfl pcTwo rfl (fun size address accessed => ?_)
    rw [two, one] at accessed
    cases accessed
    change Aligned 4 (s.regs.get t4 + 0) ∧ (indexOf (s.regs.get t4 + 0)).toNat < _
    rw [first]
    decide

/-- All instructions of the program are supported. -/
theorem fib_supported (placed : Placed imem 0 (fibProgram count)) (here : s.pc = 0) :
    ∀ k < 6 * count.toNat + 9, Supported imem (seqRun imem s k) := by
  obtain ⟨t, lines, walk, below, length, pc, passing, -⟩ := finish_run placed here
  have loop := supported_walk placed (show Fits 0 14 by decide) walk
    (fun k inside => fib_plain count k (below k inside))
  have run := walk.run
  rw [← run] at pc passing
  have whole := supported_add loop (fib_finish placed pc passing)
  rwa [length] at whole

/-- What the program leaves behind in the registers and in a data memory of `depth` words. -/
structure FibDone (depth : Nat) (count : Word) (dmem : Ram) (regs : Reg → Word) (after : Ram) :
    Prop where
  number : regs a0 = fibWord count.toNat
  words : ∀ index : BitVec 30, index.toNat < depth → after index =
    if index = 0x42 then fibWord (count.toNat + 1)
    else if index = 0x41 then fibWord count.toNat
    else dmem index

theorem fib_seqRun (placed : Placed imem 0 (fibProgram count)) (rf : RegArray) (dmem : Ram)
    (depth : Nat) :
    (seqRun imem (Single.seqInit rf dmem) (6 * count.toNat + 9)).pc = 56 ∧
    FibDone depth count dmem (seqRun imem (Single.seqInit rf dmem) (6 * count.toNat + 9)).regs.get
      (wordAt (n := 30) (seqRun imem (Single.seqInit rf dmem) (6 * count.toNat + 9)).mem) := by
  obtain ⟨t, lines, walk, -, length, pc, number, words⟩ :=
    fib_run (s := Single.seqInit rf dmem) placed rfl
  have run := walk.run
  rw [length] at run
  rw [run]
  refine ⟨pc, number, fun index _ => ?_⟩
  rw [words]
  exact congrArg (fun old => if index = 0x42 then _ else if index = 0x41 then _ else old)
    (wordAt_bytesOf dmem index)

/-- On both cores, whatever the registers and the data memory hold at reset, the program
comes to its `ecall` with F[n] in `a0` and in memory and F[n+1] behind it: the single-cycle
core in cycle `6 n + 9`, the pipeline in at most three times as many cycles and two. Each
core's data memory keeps all its other words. -/
theorem fib_on_cores (placed : Placed imem 0 (fibProgram count)) (rf : RegArray) (dmem : Ram)
    (x x' : Nat → Undef) :
    ((Single.topRun imem x rf dmem (6 * count.toNat + 9)).core.pc = 56 ∧
      FibDone Single.dmemDepth count dmem
        (regRead (Single.topRun imem x rf dmem (6 * count.toNat + 9)).core.rf)
        (Single.topRun imem x rf dmem (6 * count.toNat + 9)).dmem) ∧
    ∃ n ≤ 3 * (6 * count.toNat + 9) + 2,
      (Pipelined.topRun imem x' rf dmem n).core.regE.pcE = 56 ∧
      FibDone Pipelined.depth count dmem
        (regRead (Pipelined.topRun imem x' rf dmem (n + 1)).core.rfNegedge)
        (Pipelined.topRun imem x' rf dmem (n + 1)).dmem := by
  obtain ⟨pc, number, words⟩ := fib_seqRun placed rf dmem Single.dmemDepth
  obtain ⟨-, -, allWords⟩ := fib_seqRun placed rf dmem Pipelined.depth
  have supported := fib_supported (s := Single.seqInit rf dmem) placed rfl
  have single := Single.represents_after x (fun k before => (supported k before).toSupported)
  have inside : (indexOf (seqRun imem (Single.seqInit rf dmem)
      (6 * count.toNat + 9)).pc).toNat < Pipelined.depth := by
    rw [pc]
    decide
  obtain ⟨⟨xd, holds⟩, regs, mem⟩ :=
    Pipelined.executeCycle_commits (supportedTo supported inside) x'
  obtain ⟨-, cycles⟩ :=
    Pipelined.executeCycle_bounds imem (Pipelined.seqInit rf dmem) (6 * count.toNat + 9)
  refine ⟨⟨single.pc.trans pc, ?_, fun index within => ?_⟩, _, cycles, ?_, ?_,
    fun index within => ?_⟩
  · rw [regRead_eq, single.regs]
    exact number
  · rw [single.mem index within]
    exact words index within
  · exact (congrArg Pipelined.RegE.pcE holds.data).trans pc
  · exact (regs a0).trans number
  · rw [mem index within]
    exact allWords index within

/-- The image of the boards computes F[38]. -/
theorem fib_on_cores_image : regRead (Single.topRun (fibImage 0x26) (fun _ => default)
      (fun _ => 0) (fun _ => 0) 237).core.rf a0 = 39088169 ∧
    ∃ n ≤ 713, regRead (Pipelined.topRun (fibImage 0x26) (fun _ => default) (fun _ => 0)
      (fun _ => 0) (n + 1)).core.rfNegedge a0 = 39088169 := by
  obtain ⟨⟨-, single⟩, n, cycles, -, pipelined⟩ :=
    fib_on_cores (fibImage_placed 0x26) (fun _ => 0) (fun _ => 0) (fun _ => default)
      (fun _ => default)
  have number : fibWord ((0x26 : BitVec 12).signExtend 32).toNat = 39088169 := by decide
  exact ⟨single.number.trans number, n, cycles, pipelined.number.trans number⟩

end Fib

section Multiply

open Multiply

variable {imem : Ram} {rf : RegArray} {dmem : Ram} {base : Word} {K : Nat}

theorem mult_plain : ∀ k < 12, ∃ i, multLoop[k]? = some i ∧ plain i = true := by
  intro k before
  match k, before with
  | 0, _ | 1, _ | 2, _ | 3, _ | 4, _ | 5, _ | 6, _ | 7, _ | 8, _ | 9, _ | 10, _ | 11, _ =>
    exact ⟨_, rfl, rfl⟩

/-- Wherever the loop stands in a program, and whenever instructions that both cores support
lead a run from reset to it with `s2`, `s3` and `s4` clear, both cores come to `done` with the
product of `s1` and `s0` in `s4` and `s3`. -/
theorem mult_on_cores (placed : Placed imem base multLoop) (fits : Fits base 13)
    (supported : ∀ k < K, Supported imem (seqRun imem (Single.seqInit rf dmem) k))
    (here : (seqRun imem (Single.seqInit rf dmem) K).pc = base)
    (upper : (seqRun imem (Single.seqInit rf dmem) K).regs.get s2 = 0)
    (low : (seqRun imem (Single.seqInit rf dmem) K).regs.get s3 = 0)
    (high : (seqRun imem (Single.seqInit rf dmem) K).regs.get s4 = 0)
    (x x' : Nat → Undef) :
    ∃ n m, (Single.topRun imem x rf dmem (K + n)).core.pc = done base ∧
      (regRead (Single.topRun imem x rf dmem (K + n)).core.rf s4 ++
          regRead (Single.topRun imem x rf dmem (K + n)).core.rf s3).toNat =
        (regRead (Single.topRun imem x rf dmem K).core.rf s1).toNat *
          (regRead (Single.topRun imem x rf dmem K).core.rf s0).toNat ∧
      (Pipelined.topRun imem x' rf dmem m).core.regE.pcE = done base ∧
      ∀ r, regRead (Pipelined.topRun imem x' rf dmem (m + 1)).core.rfNegedge r =
        regRead (Single.topRun imem x rf dmem (K + n)).core.rf r := by
  obtain ⟨t, lines, walk, below, -, pc, product⟩ := loop_product placed here upper low high
  have run := walk.run
  have loop := supported_walk placed ⟨fits.aligned, Nat.le_of_succ_le fits.inside⟩ walk
    (fun k inside => mult_plain k (below k inside))
  have all := supported_add supported loop
  rw [← run, ← seqRun_add] at pc product
  have begun := Single.represents_after x (fun k before => (supported k before).toSupported)
  have ended := Single.represents_after x (fun k before => (all k before).toSupported)
  have inside : (indexOf (seqRun imem (Single.seqInit rf dmem) (K + lines.length)).pc).toNat <
      Pipelined.depth := by
    rw [pc]
    exact (fits.line (by decide : 12 < 13)).2
  obtain ⟨⟨xd, holds⟩, regs, -⟩ :=
    Pipelined.executeCycle_commits (supportedTo all inside) x'
  refine ⟨_, _, ended.pc.trans pc, ?_, (congrArg Pipelined.RegE.pcE holds.data).trans pc, ?_⟩
  · simp only [regRead_eq, begun.regs, ended.regs]
    exact product
  · intro r
    rw [regRead_eq (Single.topRun imem x rf dmem (K + lines.length)).core.rf, ended.regs]
    exact regs r

/-- What the image does before the loop. -/
def multInit : List Instr := (multWords.take 40).filterMap decode

theorem multInit_supported (rf : RegArray) (dmem : Ram) :
    ∀ k < 40, Supported multImage (seqRun multImage (Single.seqInit rf dmem) k) := by
  have placed : Placed multImage 0 multInit := by decide
  have start : (Single.seqInit rf dmem).pc = lineAddress 0 0 := rfl
  have line : ∀ j (inside : j < multInit.length), multInit[0 + j]? = some multInit[j] := by
    intro j inside
    rw [Nat.zero_add]
    exact List.getElem?_eq_getElem inside
  obtain ⟨walk, -⟩ := placed.block multInit line (by decide) start
  have supported := supported_walk placed (show Fits 0 40 by decide) walk (by decide)
  rwa [List.length_range'] at supported

/-- In the image the loop is reached after forty instructions. -/
theorem mult_on_cores_image : ∃ n,
    (regRead (Single.topRun multImage (fun _ => default) (fun _ => 0) (fun _ => 0)
        (40 + n)).core.rf s4 ++
      regRead (Single.topRun multImage (fun _ => default) (fun _ => 0) (fun _ => 0)
        (40 + n)).core.rf s3).toNat = 0x81346FCA * 0x17C3A571 := by
  obtain ⟨n, m, -, product, -⟩ := mult_on_cores (K := 40) multImage_placed
    (show Fits 160 13 by decide) (multInit_supported (fun _ => 0) (fun _ => 0))
    (by decide +kernel) (by decide +kernel) (by decide +kernel) (by decide +kernel)
    (fun _ => default) (fun _ => default)
  refine ⟨n, product.trans ?_⟩
  decide +kernel

end Multiply

end RiscvLab.Cores
