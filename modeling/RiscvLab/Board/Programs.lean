import RiscvLab.Board.Precise
import RiscvLab.Cores.Programs

/-!
# Programs on the pipelined board

The loops of fib.S and mult.S consist of arithmetic, branches and jumps, so the board's
pipeline runs them as the sequential machine does: fib.S up to its first store, and the
multiplication wherever it is reached without an access to the memory.
-/
namespace RiscvLab.Board
open RiscvLab.Lib RiscvLab.Lib.ByteMemory RiscvLab.Lib.Run RiscvLab.Hdl RiscvLab.Rv32i
  RiscvLab.Pipelined

section Calm

variable {imem : Ram} {base : Word} {program : List Instr} {s t : Arch} {lines : List Nat}

/-- Arithmetic, branches and direct jumps. -/
def steady : Instr → Bool
  | .reg .. | .imm .. | .branch .. | .jal .. => true
  | .load .. | .store .. | .jalr .. | .lui .. | .auipc .. => false

theorem access_of_steady {i : Instr} (isSteady : steady i = true) : access s i = none := by
  cases i with
  | reg | imm | branch | jal => rfl
  | load | store | jalr | lui | auipc => cases isSteady

theorem plain_of_steady {i : Instr} (isSteady : steady i = true) : Cores.plain i = true := by
  cases i with
  | reg | imm | branch | jal => rfl
  | load | store | jalr | lui | auipc => cases isSteady

/-- What is steady does not stall its successor. -/
theorem gap_of_steady {k : Nat} {i : Instr} (here : fetch imem (seqRun imem s k) = some i)
    (isSteady : steady i = true) : gap imem s k ≠ 2 := by
  have early : isLoadOrLui i = false := by
    cases i with
    | reg | imm | branch | jal => rfl
    | load | store | jalr | lui | auipc => cases isSteady
  rw [gap_eq here, early, Bool.false_and, if_neg Bool.false_ne_true]
  split <;> decide

/-- A walk through steady lines is calm. -/
theorem calm_walk (placed : Placed imem base program) (walk : Walks imem base s t lines)
    (steadyLines : ∀ k ∈ lines, ∃ i, program[k]? = some i ∧ steady i = true) :
    CalmTo imem s lines.length := by
  have line : ∀ k < lines.length, ∃ i, fetch imem (seqRun imem s k) = some i ∧
      steady i = true := by
    intro k inside
    obtain ⟨i, inProgram, isSteady⟩ := steadyLines _ (List.getElem_mem inside)
    exact ⟨i, placed.fetch inProgram (walks_pc walk inside), isSteady⟩
  refine ⟨fun k inside i here => ?_, fun k inside => ?_⟩
  · obtain ⟨j, fetched, isSteady⟩ := line k inside
    cases here.symm.trans fetched
    exact access_of_steady isSteady
  · obtain ⟨i, fetched, isSteady⟩ := line k inside
    exact gap_of_steady fetched isSteady

/-- It is also supported. -/
theorem steady_walk (placed : Placed imem base program) (fits : Cores.Fits base program.length)
    (walk : Walks imem base s t lines)
    (steadyLines : ∀ k ∈ lines, ∃ i, program[k]? = some i ∧ steady i = true) :
    (∀ k < lines.length, Cores.Supported imem (seqRun imem s k)) ∧
      CalmTo imem s lines.length := by
  refine ⟨Cores.supported_walk placed fits walk fun k inside => ?_,
    calm_walk placed walk steadyLines⟩
  obtain ⟨i, line, isSteady⟩ := steadyLines k inside
  exact ⟨i, line, plain_of_steady isSteady⟩

theorem gap_add (init : Arch) (j k : Nat) :
    gap imem init (j + k) = gap imem (seqRun imem init j) k := by
  unfold gap
  rw [seqRun_add, Nat.add_assoc, seqRun_add]

/-- Two stretches of a run. -/
theorem CalmTo.add {j k : Nat} (first : CalmTo imem s j)
    (rest : CalmTo imem (seqRun imem s j) k) : CalmTo imem s (j + k) := by
  refine ⟨fun m before i here => ?_, fun m before => ?_⟩
  · by_cases early : m < j
    · exact first.noAccess m early i here
    · have later := rest.noAccess (m - j) (by omega)
      rw [← seqRun_add, Nat.add_sub_cancel' (by omega)] at later
      exact later i here
  · by_cases early : m < j
    · exact first.noStall m early
    · have later := rest.noStall (m - j) (by omega)
      rwa [← gap_add, Nat.add_sub_cancel' (by omega)] at later

end Calm

section Fib

open Fib

variable {imem : Ram} {count : Word}

theorem fib_steady (count : Word) : ∀ k < 11,
    ∃ i, (fibProgram count)[k]? = some i ∧ steady i = true := by
  intro k before
  match k, before with
  | 0, _ | 1, _ | 2, _ | 3, _ | 4, _ | 5, _ | 6, _ | 7, _ | 8, _ | 9, _ | 10, _ =>
    exact ⟨_, rfl, rfl⟩

/-- Whatever the bus does, the board comes to `finish` of fib.S with F[n] in `t0` and F[n+1]
in `t1`, and up to there it has not started a transaction. -/
theorem fib_to_finish (placed : Placed imem 0 (fibProgram count)) (rf : RegArray)
    (input : Nat → Input) :
    ∃ n ≤ 3 * (6 * count.toNat + 6) + 2, (topRun imem input rf n).core.regE.pcE = 44 ∧
      regRead (topRun imem input rf (n + 1)).core.rfNegedge t0 = fibWord count.toNat ∧
      regRead (topRun imem input rf (n + 1)).core.rfNegedge t1 = fibWord (count.toNat + 1) ∧
      ∀ m ≤ n, (topRun imem input rf m).memControlNegedge (input m) = .idle := by
  obtain ⟨t, lines, walk, below, length, pc, passing, -⟩ :=
    finish_run (s := seqInit rf fun _ => 0) placed rfl
  obtain ⟨supported, calm⟩ := steady_walk placed (show Cores.Fits 0 14 by decide) walk
    (fun k inside => fib_steady count k (below k inside))
  have run := walk.run
  have inside : (indexOf (seqRun imem (seqInit rf fun _ => 0) lines.length).pc).toNat < depth := by
    rw [run, pc]
    decide
  have reached := Cores.supportedTo supported inside
  obtain ⟨⟨xd, holds⟩, regs⟩ := board_commits reached calm input
  have cycles := (executeCycle_bounds imem (seqInit rf fun _ => 0) lines.length).2
  have address := congrArg RegE.pcE holds.data
  rw [length] at cycles
  rw [run] at regs address
  refine ⟨_, cycles, ?_, ?_, ?_, ?_⟩
  · rw [← length]
    exact address.trans pc
  · rw [← length, regs, passing.low]
  · rw [← length, regs, passing.high]
  · intro m within
    rw [← length] at within
    exact (topRun_follows reached calm input m within).memControlNegedge

/-- The image of the boards. -/
theorem fib_to_finish_image : ∃ n ≤ 704,
    regRead (topRun (fibImage 0x26) (fun _ => default) (fun _ => 0) (n + 1)).core.rfNegedge t0 =
      39088169 := by
  obtain ⟨n, cycles, -, number, -⟩ :=
    fib_to_finish (fibImage_placed 0x26) (fun _ => 0) (fun _ => default)
  exact ⟨n, cycles, number.trans (by decide)⟩

end Fib

section Multiply

open Multiply

variable {imem : Ram} {rf : RegArray} {base : Word} {K : Nat}

theorem mult_steady : ∀ k < 12, ∃ i, multLoop[k]? = some i ∧ steady i = true := by
  intro k before
  match k, before with
  | 0, _ | 1, _ | 2, _ | 3, _ | 4, _ | 5, _ | 6, _ | 7, _ | 8, _ | 9, _ | 10, _ | 11, _ =>
    exact ⟨_, rfl, rfl⟩

/-- If a calm run from reset comes to the loop with `s2`, `s3` and `s4` clear, the board comes
to `done` with the product of `s1` and `s0`, as they were before the loop, in `s4` and `s3`,
and without having started a transaction. Calm is a run without loads and stores in which no
instruction stalls the one behind it; the start of the image in the labs, where each `lui`
stalls its `addi`, is not calm. -/
theorem mult_on_board (placed : Placed imem base multLoop) (fits : Cores.Fits base 13)
    (supported : ∀ k < K, Cores.Supported imem (seqRun imem (seqInit rf fun _ => 0) k))
    (calm : CalmTo imem (seqInit rf fun _ => 0) K)
    (here : (seqRun imem (seqInit rf fun _ => 0) K).pc = base)
    (upper : (seqRun imem (seqInit rf fun _ => 0) K).regs.get s2 = 0)
    (low : (seqRun imem (seqInit rf fun _ => 0) K).regs.get s3 = 0)
    (high : (seqRun imem (seqInit rf fun _ => 0) K).regs.get s4 = 0) (input : Nat → Input) :
    ∃ n, (topRun imem input rf n).core.regE.pcE = done base ∧
      (regRead (topRun imem input rf (n + 1)).core.rfNegedge s4 ++
          regRead (topRun imem input rf (n + 1)).core.rfNegedge s3).toNat =
        ((seqRun imem (seqInit rf fun _ => 0) K).regs.get s1).toNat *
          ((seqRun imem (seqInit rf fun _ => 0) K).regs.get s0).toNat ∧
      ∀ m ≤ n, (topRun imem input rf m).memControlNegedge (input m) = .idle := by
  obtain ⟨t, lines, walk, below, -, pc, product⟩ := loop_product placed here upper low high
  have run := walk.run
  obtain ⟨loop, calmLoop⟩ := steady_walk placed
    ⟨fits.aligned, Nat.le_of_succ_le fits.inside⟩ walk
    (fun k inside => mult_steady k (below k inside))
  have all := Cores.supported_add supported loop
  have calmAll := calm.add calmLoop
  rw [← run, ← seqRun_add] at pc product
  have inside : (indexOf (seqRun imem (seqInit rf fun _ => 0) (K + lines.length)).pc).toNat <
      depth := by
    rw [pc]
    exact (fits.line (by decide : 12 < 13)).2
  have reached := Cores.supportedTo all inside
  obtain ⟨⟨xd, holds⟩, regs⟩ := board_commits reached calmAll input
  refine ⟨_, (congrArg RegE.pcE holds.data).trans pc, ?_, fun m within => ?_⟩
  · rw [regs, regs]
    exact product
  · exact (topRun_follows reached calmAll input m within).memControlNegedge

/-- The loop behind two instructions that set the factors. -/
def factorsImage (index : BitVec 30) : Word :=
  ([0x00500493, -- addi s1, x0, 5
    0x00700413] ++ -- addi s0, x0, 7
    multWords.drop 40)[index.toNat]?.getD 0

theorem mult_on_board_factors : ∃ n,
    (regRead (topRun factorsImage (fun _ => default) (fun _ => 0) (n + 1)).core.rfNegedge s4 ++
      regRead (topRun factorsImage (fun _ => default) (fun _ => 0)
        (n + 1)).core.rfNegedge s3).toNat = 35 := by
  have setup : Placed factorsImage 0 [.imm .add s1 x0 5, .imm .add s0 x0 7] := by decide
  have start : (seqInit (fun _ => 0) fun _ => 0).pc = lineAddress 0 0 := rfl
  obtain ⟨walk, -⟩ := setup.block [.imm .add s1 x0 5, .imm .add s0 x0 7]
    (by decide) (by decide) start
  obtain ⟨n, -, product, -⟩ := mult_on_board
    (show Placed factorsImage 8 multLoop by decide) (by decide)
    (Cores.supported_walk setup (by decide) walk (by decide))
    (calm_walk setup walk (by decide)) (by decide +kernel) (by decide +kernel) (by decide +kernel)
    (by decide +kernel) (fun _ => default)
  exact ⟨n, product.trans (by decide +kernel)⟩

/-- The image of the labs is not calm: its `lui` instructions stall the `addi` behind them, the
board loses the two moves that follow, and the product of zeros is computed. -/
example : regRead (topRun multImage (fun _ => default) (fun _ => 0) 60).core.rf s3 = 0 := by
  decide +kernel

end Multiply

end RiscvLab.Board
