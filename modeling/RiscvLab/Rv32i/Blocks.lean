import RiscvLab.Rv32i.Machine

/-!
# Programs of the sequential machine

A program that stands in the instruction memory from some address on, the addresses that
a run goes through, and the runs of its straight-line parts.
-/
namespace RiscvLab.Rv32i
open RiscvLab.Lib.ByteMemory RiscvLab.Lib.Run

/-- The address of a program's `k`-th instruction. -/
def lineAddress (base : Word) (k : Nat) : Word := base + BitVec.ofNat 32 (4 * k)

theorem lineAddress_succ (base : Word) (k : Nat) :
    lineAddress base (k + 1) = lineAddress base k + 4 := by
  unfold lineAddress
  rw [Nat.mul_succ, BitVec.ofNat_add, ← BitVec.add_assoc]
  rfl

theorem lineAddress_inj {base : Word} {j k : Nat} (small : j < 2 ^ 30) (small' : k < 2 ^ 30)
    (same : lineAddress base j = lineAddress base k) : j = k := by
  have offsets : BitVec.ofNat 32 (4 * j) = BitVec.ofNat 32 (4 * k) :=
    (BitVec.add_right_inj base).mp same
  have values := congrArg BitVec.toNat offsets
  rw [BitVec.toNat_ofNat, BitVec.toNat_ofNat] at values
  omega

/-- Addresses of a path are counted as lines of the program. -/
theorem count_lineAddress {base : Word} {lines : List Nat} (small : ∀ k ∈ lines, k < 2 ^ 30)
    {j : Nat} (here : j < 2 ^ 30) :
    (lines.map (lineAddress base)).count (lineAddress base j) = lines.count j := by
  induction lines with
  | nil => rfl
  | cons k lines ih =>
    have rest := ih fun k inside => small k (List.mem_cons_of_mem _ inside)
    have same : (lineAddress base k == lineAddress base j) = (k == j) := by
      rw [Bool.eq_iff_iff, beq_iff_eq, beq_iff_eq]
      exact ⟨lineAddress_inj (small k List.mem_cons_self) here, congrArg _⟩
    rw [List.map_cons, List.count_cons, List.count_cons, rest, same]

/-- A program stands in the instruction memory from an address on. -/
def Placed (imem : BitVec 30 → Word) (base : Word) (program : List Instr) : Prop :=
  ∀ k (inside : k < program.length),
    decode (imem ((lineAddress base k).extractLsb' 2 30)) = some program[k]

instance (imem : BitVec 30 → Word) (base : Word) (program : List Instr) :
    Decidable (Placed imem base program) :=
  inferInstanceAs (Decidable (∀ k (inside : k < program.length),
    decode (imem ((lineAddress base k).extractLsb' 2 30)) = some program[k]))

/-- A list of words loaded from address 0 on holds the program that they encode. -/
theorem placed_of_words {words : List Word} {program : List Instr}
    (short : program.length < 2 ^ 30)
    (encoded : ∀ k (inside : k < program.length),
      ∃ w, words[k]? = some w ∧ decode w = some program[k]) :
    Placed (fun index => words[index.toNat]?.getD 0) 0 program := by
  intro k inside
  obtain ⟨w, here, decodes⟩ := encoded k inside
  have index : ((lineAddress 0 k).extractLsb' 2 30).toNat = k := by
    have start : lineAddress 0 k = BitVec.ofNat 32 (4 * k) := BitVec.zero_add _
    rw [start, BitVec.extractLsb'_toNat, BitVec.toNat_ofNat,
      Nat.shiftRight_eq_div_pow]
    omega
  change decode (words[((lineAddress 0 k).extractLsb' 2 30).toNat]?.getD 0) = _
  rw [index, here]
  exact decodes

section Paths

variable (imem : BitVec 30 → Word)

/-- The addresses of the first `k` instructions. -/
def pcTrace (init : Arch) : Nat → List Word :=
  trace (fun _ s => [s.pc]) (fun _ : Unit => step imem) (fun _ => ()) init

/-- A run from one state to another, through the addresses of a path. -/
def Reaches (s : Arch) (path : List Word) (t : Arch) : Prop :=
  seqRun imem s path.length = t ∧ pcTrace imem s path.length = path

variable {imem} {s t u : Arch} {path path' : List Word}

theorem seqRun_add (j k : Nat) :
    seqRun imem s (j + k) = seqRun imem (seqRun imem s j) k := run_add j k

theorem pcTrace_add (j k : Nat) :
    pcTrace imem s (j + k) = pcTrace imem s j ++ pcTrace imem (seqRun imem s j) k :=
  trace_add j k

theorem pcTrace_eq (n : Nat) :
    pcTrace imem s n = (List.range n).map (fun k => (seqRun imem s k).pc) := by
  induction n with
  | zero => rfl
  | succ n ih =>
    rw [List.range_succ, List.map_append, ← ih]
    rfl

theorem Reaches.refl (s : Arch) : Reaches imem s [] s := ⟨rfl, rfl⟩

theorem Reaches.trans (h : Reaches imem s path t) (more : Reaches imem t path' u) :
    Reaches imem s (path ++ path') u := by
  obtain ⟨first, firstPath⟩ := h
  obtain ⟨rest, restPath⟩ := more
  unfold Reaches
  rw [List.length_append, seqRun_add, pcTrace_add, first, rest, firstPath, restPath]
  exact ⟨rfl, rfl⟩

/-- One instruction. -/
theorem Reaches.one {i : Instr} (here : fetch imem s = some i) :
    Reaches imem s [s.pc] (execute s i) :=
  ⟨seqRun_succ here, rfl⟩

end Paths

section Straight

/-- An instruction that leads to the next one. -/
def Instr.straight : Instr → Bool
  | .branch .. | .jal .. | .jalr .. => false
  | _ => true

theorem pc_of_straight {i : Instr} (straight : i.straight = true) (s : Arch) :
    (execute s i).pc = s.pc + 4 := by
  cases i <;> first | rfl | cases straight

/-- Only a store changes the memory. -/
theorem mem_of_other {i : Instr} (other : ∀ op r1 r2 imm, i ≠ .store op r1 r2 imm) (s : Arch) :
    (execute s i).mem = s.mem := by
  cases i with
  | store op r1 r2 imm => exact absurd rfl (other op r1 r2 imm)
  | load | reg | imm | branch | jal | jalr | lui | auipc => rfl

theorem regs_of_branch (op : BranchOp) (r1 r2 : Reg) (imm : Word) (s : Arch) :
    (execute s (.branch op r1 r2 imm)).regs = s.regs := rfl

/-- A jump without link. -/
theorem regs_of_jump (imm : Word) (s : Arch) : (execute s (.jal 0 imm)).regs = s.regs :=
  Regs.ext fun _ => if_neg fun written => written.2 rfl

/-- Straight-line code. -/
def executeBlock (s : Arch) (block : List Instr) : Arch := block.foldl execute s

variable {imem : BitVec 30 → Word} {base : Word} {program : List Instr} {s t u : Arch}

variable (imem base s t) in
/-- A run through lines of a program. -/
def Walks (lines : List Nat) : Prop := Reaches imem s (lines.map (lineAddress base)) t

theorem Walks.trans {lines lines' : List Nat} (h : Walks imem base s t lines)
    (more : Walks imem base t u lines') : Walks imem base s u (lines ++ lines') := by
  unfold Walks
  rw [List.map_append]
  exact Reaches.trans h more

theorem Walks.run {lines : List Nat} (walk : Walks imem base s t lines) :
    seqRun imem s lines.length = t := by
  obtain ⟨run, -⟩ := walk
  rwa [List.length_map] at run

/-- Along a walk the program counter goes through its lines. -/
theorem walks_pc {lines : List Nat} (walk : Walks imem base s t lines) {k : Nat}
    (inside : k < lines.length) :
    (seqRun imem s k).pc = lineAddress base lines[k] := by
  obtain ⟨-, path⟩ := walk
  rw [pcTrace_eq, List.length_map] at path
  have entry := congrArg (fun list => list[k]?) path
  simpa [inside] using entry

theorem Placed.fetch (placed : Placed imem base program) {k : Nat} {i : Instr}
    (line : program[k]? = some i) (here : s.pc = lineAddress base k) :
    Rv32i.fetch imem s = some i := by
  obtain ⟨inside, rfl⟩ := List.getElem?_eq_some_iff.mp line
  rw [Rv32i.fetch, here]
  exact placed k inside

theorem Placed.one (placed : Placed imem base program) {k : Nat} {i : Instr}
    (line : program[k]? = some i) (here : s.pc = lineAddress base k) :
    Walks imem base s (execute s i) [k] := by
  have run := Reaches.one (placed.fetch line here)
  rw [here] at run
  exact run

/-- A straight-line part of a program runs from its first to its last instruction. -/
theorem Placed.block (placed : Placed imem base program) {k : Nat} (block : List Instr)
    (part : ∀ j (inside : j < block.length), program[k + j]? = some block[j])
    (straight : ∀ i ∈ block, i.straight = true) (here : s.pc = lineAddress base k) :
    Walks imem base s (executeBlock s block) (List.range' k block.length) ∧
      (executeBlock s block).pc = lineAddress base (k + block.length) := by
  induction block generalizing k s with
  | nil => exact ⟨.refl s, here⟩
  | cons i block ih =>
    have line : program[k]? = some i := part 0 (Nat.zero_lt_succ _)
    have next : (execute s i).pc = lineAddress base (k + 1) := by
      rw [pc_of_straight (straight i List.mem_cons_self), here, lineAddress_succ]
    have rest : ∀ j (inside : j < block.length), program[k + 1 + j]? = some block[j] := by
      intro j inside
      have later := part (j + 1) (Nat.succ_lt_succ inside)
      rwa [Nat.add_assoc, Nat.add_comm 1 j]
    obtain ⟨run, pc⟩ := ih rest (fun j inside => straight j (List.mem_cons_of_mem i inside)) next
    refine ⟨(placed.one line here).trans run, ?_⟩
    rw [List.length_cons, Nat.add_comm block.length, ← Nat.add_assoc]
    exact pc

end Straight

end RiscvLab.Rv32i
