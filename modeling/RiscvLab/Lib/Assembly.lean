import Mathlib.Data.BitVec
import Mathlib.Logic.Function.Basic

/-!
# Assembly programs

A fragment of RISC-V assembly over registers of any width: a program is its text, with
labels as lines of their own, and runs up to `ret`. Loads and stores move four bytes,
little-endian, and every run comes with the accesses that it makes. Straight-line parts
run as blocks.
-/
namespace RiscvLab.Lib.Assembly

inductive Reg
  | zero | ra | sp | gp | tp
  | t0 | t1 | t2 | t3 | t4 | t5 | t6
  | s0 | s1 | s2 | s3 | s4 | s5 | s6 | s7 | s8 | s9 | s10 | s11
  | a0 | a1 | a2 | a3 | a4 | a5 | a6 | a7
  deriving DecidableEq, Repr

/-- The operands stand in the order of the text. -/
inductive Instr (L : Type)
  | add (rd rs1 rs2 : Reg)
  | sub (rd rs1 rs2 : Reg)
  | mul (rd rs1 rs2 : Reg)
  | addi (rd rs1 : Reg) (imm : Int)
  | slli (rd rs1 : Reg) (shamt : Nat)
  | srli (rd rs1 : Reg) (shamt : Nat)
  | lw (rd : Reg) (offset : Int) (rs1 : Reg)
  | sw (rs2 : Reg) (offset : Int) (rs1 : Reg)
  | bge (rs1 rs2 : Reg) (target : L)
  | blt (rs1 rs2 : Reg) (target : L)
  | j (target : L)
  | ret
  deriving DecidableEq, Repr

inductive Line (L : Type)
  | label (name : L)
  | instr (i : Instr L)
  deriving DecidableEq, Repr

section Memory

variable {w : Nat}

/-- The four bytes from an address on. -/
def loadWord (mem : BitVec w → BitVec 8) (address : BitVec w) : BitVec 32 :=
  mem (address + 3) ++ mem (address + 2) ++ mem (address + 1) ++ mem address

def storeWord (mem : BitVec w → BitVec 8) (address : BitVec w) (value : BitVec 32) :
    BitVec w → BitVec 8 := fun byte =>
  if (byte - address).toNat < 4 then value.extractLsb' (8 * (byte - address).toNat) 8
  else mem byte

variable (mem : BitVec w → BitVec 8) (address : BitVec w) (value : BitVec 32)

theorem storeWord_outside {byte : BitVec w} (outside : ¬ (byte - address).toNat < 4) :
    storeWord mem address value byte = mem byte := if_neg outside

/-- A load depends on four bytes only. -/
theorem loadWord_congr {mem mem' : BitVec w → BitVec 8} {address : BitVec w}
    (same : ∀ byte, (byte - address).toNat < 4 → mem byte = mem' byte) :
    loadWord mem address = loadWord mem' address := by
  have near : ∀ k < 4, mem (address + BitVec.ofNat w k) = mem' (address + BitVec.ofNat w k) := by
    intro k bound
    refine same _ ?_
    rw [BitVec.add_comm, BitVec.add_sub_cancel, BitVec.toNat_ofNat]
    exact Nat.lt_of_le_of_lt (Nat.mod_le k _) bound
  have first := near 0 (by decide)
  rw [BitVec.add_zero] at first
  unfold loadWord
  exact congrArg₂ _ (congrArg₂ _ (congrArg₂ _ (near 3 (by decide)) (near 2 (by decide)))
    (near 1 (by decide))) first

theorem loadWord_storeWord (wide : 2 ≤ w) :
    loadWord (storeWord mem address value) address = value := by
  have power : 4 ≤ 2 ^ w := Nat.pow_le_pow_right (by decide : 0 < 2) wide
  have byte : ∀ k < 4, storeWord mem address value (address + BitVec.ofNat w k) =
      value.extractLsb' (8 * k) 8 := by
    intro k bound
    have offset : (address + BitVec.ofNat w k - address).toNat = k := by
      rw [BitVec.add_comm, BitVec.add_sub_cancel, BitVec.toNat_ofNat, Nat.mod_eq_of_lt (by omega)]
    rw [storeWord, offset, if_pos bound]
  have first := byte 0 (by decide)
  rw [BitVec.add_zero] at first
  have merge : value.extractLsb' 24 8 ++ value.extractLsb' 16 8 ++ value.extractLsb' 8 8 ++
      value.extractLsb' 0 8 = value := by
    ext i hi
    grind
  unfold loadWord
  exact (congrArg₂ _ (congrArg₂ _ (congrArg₂ _ (byte 3 (by decide)) (byte 2 (by decide)))
    (byte 1 (by decide))) first).trans merge

end Memory

/-- A memory access of four bytes. -/
inductive Access (w : Nat)
  | read (address : BitVec w)
  | write (address : BitVec w)
  deriving DecidableEq, Repr

/-- The next line, the registers and the memory. -/
structure Machine (w : Nat) where
  pc : Nat
  regs : Reg → BitVec w
  mem : BitVec w → BitVec 8

namespace Machine

variable {w : Nat} (s : Machine w) (r rd : Reg) (v : BitVec w)

/-- Register `zero` reads 0. -/
def get : BitVec w := if r = .zero then 0 else s.regs r

def next : Machine w := { s with pc := s.pc + 1 }

def goto (pc : Nat) : Machine w := { s with pc }

/-- Write a register and go on. -/
def assign : Machine w := { s with pc := s.pc + 1, regs := Function.update s.regs rd v }

/-- Write four bytes of the memory and go on. -/
def store (address : BitVec w) (value : BitVec 32) : Machine w :=
  { s with pc := s.pc + 1, mem := storeWord s.mem address value }

@[simp] theorem get_zero : s.get .zero = 0 := rfl

@[simp] theorem pc_goto (pc : Nat) : (s.goto pc).pc = pc := rfl

@[simp] theorem get_goto (pc : Nat) : (s.goto pc).get r = s.get r := rfl

@[simp] theorem mem_goto (pc : Nat) : (s.goto pc).mem = s.mem := rfl

@[simp] theorem pc_next : s.next.pc = s.pc + 1 := rfl

@[simp] theorem get_next : s.next.get r = s.get r := rfl

@[simp] theorem mem_next : s.next.mem = s.mem := rfl

@[simp] theorem pc_assign : (s.assign rd v).pc = s.pc + 1 := rfl

@[simp] theorem mem_assign : (s.assign rd v).mem = s.mem := rfl

@[simp] theorem pc_store (address : BitVec w) (value : BitVec 32) :
    (s.store address value).pc = s.pc + 1 := rfl

@[simp] theorem get_store (address : BitVec w) (value : BitVec 32) :
    (s.store address value).get r = s.get r := rfl

@[simp] theorem mem_store (address : BitVec w) (value : BitVec 32) :
    (s.store address value).mem = storeWord s.mem address value := rfl

@[simp] theorem get_assign : (s.assign rd v).get r =
    if r = .zero then 0 else if r = rd then v else s.get r := by
  unfold get
  by_cases zero : r = .zero
  · simp [zero]
  · simp [zero, assign, Function.update_apply]

end Machine

section Semantics

variable {L : Type} {w : Nat}

/-- An instruction that leads to the next line. -/
def Instr.effect (i : Instr L) (s : Machine w) : Option (Machine w × List (Access w)) :=
  match i with
  | .add rd rs1 rs2 => some (s.assign rd (s.get rs1 + s.get rs2), [])
  | .sub rd rs1 rs2 => some (s.assign rd (s.get rs1 - s.get rs2), [])
  | .mul rd rs1 rs2 => some (s.assign rd (s.get rs1 * s.get rs2), [])
  | .addi rd rs1 imm => some (s.assign rd (s.get rs1 + BitVec.ofInt w imm), [])
  | .slli rd rs1 shamt => some (s.assign rd (s.get rs1 <<< shamt), [])
  | .srli rd rs1 shamt => some (s.assign rd (s.get rs1 >>> shamt), [])
  | .lw rd offset rs1 =>
    let address := s.get rs1 + BitVec.ofInt w offset
    some (s.assign rd ((loadWord s.mem address).signExtend w), [.read address])
  | .sw rs2 offset rs1 =>
    let address := s.get rs1 + BitVec.ofInt w offset
    some (s.store address ((s.get rs2).setWidth 32), [.write address])
  | .bge .. | .blt .. | .j .. | .ret => none

theorem line_at {p : List (Line L)} {s : Machine w} {pc : Nat} {line : Line L}
    (here : s.pc = pc) (text : p[pc]? = some line) : p[s.pc]? = some line := by
  rw [here]
  exact text

variable [DecidableEq L]

/-- The line of a label. -/
def target (p : List (Line L)) (name : L) : Nat := p.idxOf (.label name)

/-- One line; the run ends at `ret`. -/
def step (p : List (Line L)) (s : Machine w) : Option (Machine w × List (Access w)) :=
  match p[s.pc]? with
  | some (.label _) => some (s.next, [])
  | some (.instr (.bge rs1 rs2 name)) =>
    some (if (s.get rs1).slt (s.get rs2) then s.next else s.goto (target p name), [])
  | some (.instr (.blt rs1 rs2 name)) =>
    some (if (s.get rs1).slt (s.get rs2) then s.goto (target p name) else s.next, [])
  | some (.instr (.j name)) => some (s.goto (target p name), [])
  | some (.instr .ret) => none
  | some (.instr i) => i.effect s
  | none => none

/-- The next line is `ret`. -/
def AtRet (p : List (Line L)) (s : Machine w) : Prop := p[s.pc]? = some (.instr .ret)

/-- A run with its accesses. -/
inductive Steps (p : List (Line L)) : Machine w → List (Access w) → Machine w → Prop
  | refl (s : Machine w) : Steps p s [] s
  | step {s t u : Machine w} {first rest : List (Access w)} (one : step p s = some (t, first))
      (more : Steps p t rest u) : Steps p s (first ++ rest) u

/-- A run that has come to `ret`. -/
def Returns (p : List (Line L)) (s : Machine w) (accesses : List (Access w)) (t : Machine w) :
    Prop := Steps p s accesses t ∧ AtRet p t

end Semantics

section Rules

variable {L : Type} [DecidableEq L] {w : Nat} {p : List (Line L)} {s t u : Machine w}
  {first rest : List (Access w)}

theorem Steps.one (h : Assembly.step p s = some (t, first)) : Steps p s first t := by
  have run := Steps.step h (Steps.refl t)
  rwa [List.append_nil] at run

theorem Steps.trans (h : Steps p s first t) (more : Steps p t rest u) :
    Steps p s (first ++ rest) u := by
  induction h with
  | refl => exact more
  | step one _ ih =>
    rw [List.append_assoc]
    exact .step one (ih more)

/-- What every step keeps holds after any run. -/
theorem Steps.invariant {holds : Machine w → Prop}
    (preserved : ∀ s t accesses, holds s → Assembly.step p s = some (t, accesses) → holds t)
    (h : Steps p s first t) (start : holds s) : holds t := by
  induction h with
  | refl => exact start
  | step one _ ih => exact ih (preserved _ _ _ start one)

/-- A label is passed. -/
theorem step_label {name : L} (here : p[s.pc]? = some (.label name)) :
    Assembly.step p s = some (s.next, []) := by
  unfold Assembly.step
  rw [here]

theorem step_j {name : L} (here : p[s.pc]? = some (.instr (.j name))) :
    Assembly.step p s = some (s.goto (target p name), []) := by
  unfold Assembly.step
  rw [here]

theorem step_bge {rs1 rs2 : Reg} {name : L}
    (here : p[s.pc]? = some (.instr (.bge rs1 rs2 name))) : Assembly.step p s =
      some (if (s.get rs1).slt (s.get rs2) then s.next else s.goto (target p name), []) := by
  unfold Assembly.step
  rw [here]

theorem step_blt {rs1 rs2 : Reg} {name : L}
    (here : p[s.pc]? = some (.instr (.blt rs1 rs2 name))) : Assembly.step p s =
      some (if (s.get rs1).slt (s.get rs2) then s.goto (target p name) else s.next, []) := by
  unfold Assembly.step
  rw [here]

/-- A loop whose guard follows its label is entered. -/
theorem Steps.enter {rs1 rs2 : Reg} {head exit : L} (label : p[s.pc]? = some (.label head))
    (test : p[s.next.pc]? = some (.instr (.bge rs1 rs2 exit)))
    (guard : (s.get rs1).slt (s.get rs2) = true) : Steps p s [] s.next.next := by
  have passed := step_bge test
  rw [Machine.get_next, Machine.get_next, guard, if_pos rfl] at passed
  exact (Steps.one (step_label label)).trans (Steps.one passed)

/-- Such a loop is left. -/
theorem Steps.exit {rs1 rs2 : Reg} {head exit : L} (label : p[s.pc]? = some (.label head))
    (test : p[s.next.pc]? = some (.instr (.bge rs1 rs2 exit)))
    (guard : (s.get rs1).slt (s.get rs2) = false) : Steps p s [] (s.goto (target p exit)) := by
  have jumped := step_bge test
  rw [Machine.get_next, Machine.get_next, guard, if_neg Bool.false_ne_true] at jumped
  exact (Steps.one (step_label label)).trans (Steps.one jumped)

theorem step_atRet (h : AtRet p s) : Assembly.step p s = none := by
  unfold Assembly.step
  rw [h]

/-- A run to `ret` has one end and one list of accesses. -/
theorem Returns.unique {accesses accesses' : List (Access w)} {t t' : Machine w}
    (h : Returns p s accesses t) (h' : Returns p s accesses' t') :
    accesses = accesses' ∧ t = t' := by
  obtain ⟨run, ended⟩ := h
  obtain ⟨run', ended'⟩ := h'
  induction run generalizing accesses' with
  | refl =>
    cases run' with
    | refl => exact ⟨rfl, rfl⟩
    | step one =>
      rw [step_atRet ended] at one
      cases one
  | step one _ ih =>
    cases run' with
    | refl =>
      rw [step_atRet ended'] at one
      cases one
    | step one' more' =>
      rw [one] at one'
      cases one'
      obtain ⟨rfl, rfl⟩ := ih ended more'
      exact ⟨rfl, rfl⟩

/-- Whether a run comes to `ret` can be told from any of its states. -/
theorem Steps.returns_iff (h : Steps p s first t) :
    (∃ accesses u, Returns p s accesses u) ↔ ∃ accesses u, Returns p t accesses u := by
  induction h with
  | refl => exact Iff.rfl
  | step one _ ih =>
    rw [← ih]
    constructor
    · rintro ⟨accesses, u, run, ended⟩
      cases run with
      | refl =>
        rw [step_atRet ended] at one
        cases one
      | step one' more =>
        rw [one] at one'
        cases one'
        exact ⟨_, u, more, ended⟩
    · rintro ⟨accesses, u, run, ended⟩
      exact ⟨_, u, .step one run, ended⟩

/-- A program that comes back to a condition over and over does not return. -/
theorem Steps.not_returns {holds : Machine w → Prop} (cycle : ∀ s, holds s → ∃ first t rest u,
    Steps p s first t ∧ t.pc ≠ s.pc ∧ Steps p t rest u ∧ holds u) (start : holds s) :
    ¬ ∃ accesses t, Returns p s accesses t := by
  -- a state from which the condition is reached has a step and keeps leading there
  have onward : ∀ s, (∃ rest u, Steps p s rest u ∧ holds u) → ∃ first t rest u,
      Assembly.step p s = some (t, first) ∧ Steps p t rest u ∧ holds u := by
    rintro s ⟨rest, u, run, h⟩
    cases run with
    | refl =>
      obtain ⟨first, t, rest, u, there, moved, back, again⟩ := cycle _ h
      cases there with
      | refl => exact absurd rfl moved
      | step one more => exact ⟨_, _, _, u, one, more.trans back, again⟩
    | step one more => exact ⟨_, _, _, u, one, more, h⟩
  have kept : ∀ s t accesses, (∃ rest u, Steps p s rest u ∧ holds u) →
      Assembly.step p s = some (t, accesses) → ∃ rest u, Steps p t rest u ∧ holds u := by
    intro s t accesses leads one
    obtain ⟨first, t', rest, u, one', more, h⟩ := onward s leads
    rw [one'] at one
    cases one
    exact ⟨rest, u, more, h⟩
  rintro ⟨accesses, t, run, ended⟩
  have still := run.invariant kept ⟨_, s, .refl s, start⟩
  obtain ⟨_, _, _, _, one, -⟩ := onward t still
  rw [step_atRet ended] at one
  cases one

end Rules

section Blocks

variable {L : Type} {w : Nat}

/-- Straight-line code. -/
def runBlock : List (Instr L) → Machine w → Option (Machine w × List (Access w))
  | [], s => some (s, [])
  | i :: block, s =>
    match i.effect s with
    | none => none
    | some (t, first) =>
      match runBlock block t with
      | none => none
      | some (u, rest) => some (u, first ++ rest)

theorem effect_pc {i : Instr L} {s t : Machine w} {accesses : List (Access w)}
    (h : i.effect s = some (t, accesses)) : t.pc = s.pc + 1 := by
  cases i <;> cases h <;> rfl

variable {p : List (Line L)}

theorem step_effect [DecidableEq L] {i : Instr L} {s t : Machine w} {accesses : List (Access w)}
    (here : p[s.pc]? = some (.instr i)) (h : i.effect s = some (t, accesses)) :
    step p s = some (t, accesses) := by
  unfold step
  rw [here]
  cases i <;> first | exact h | cases h

/-- A block stands in a program from a line on. -/
def BlockAt (p : List (Line L)) (pc : Nat) (block : List (Instr L)) : Prop :=
  ∀ k (inside : k < block.length), p[pc + k]? = some (.instr block[k])

instance [DecidableEq L] (p : List (Line L)) (pc : Nat) (block : List (Instr L)) :
    Decidable (BlockAt p pc block) :=
  inferInstanceAs (Decidable (∀ k (inside : k < block.length), p[pc + k]? = some (.instr block[k])))

theorem BlockAt.head {pc : Nat} {i : Instr L} {block : List (Instr L)}
    (h : BlockAt p pc (i :: block)) : p[pc]? = some (.instr i) :=
  h 0 (Nat.zero_lt_succ _)

theorem BlockAt.tail {pc : Nat} {i : Instr L} {block : List (Instr L)}
    (h : BlockAt p pc (i :: block)) : BlockAt p (pc + 1) block := by
  intro k inside
  have later := h (k + 1) (Nat.succ_lt_succ inside)
  rwa [Nat.add_assoc, Nat.add_comm 1 k]

/-- A block that stands in a program runs there. -/
theorem Steps.block [DecidableEq L] {block : List (Instr L)} {s t : Machine w}
    {accesses : List (Access w)} (placed : BlockAt p s.pc block)
    (h : runBlock block s = some (t, accesses)) : Steps p s accesses t := by
  induction block generalizing s accesses with
  | nil =>
    cases h
    exact .refl _
  | cons i block ih =>
    unfold runBlock at h
    cases first : i.effect s with
    | none =>
      rw [first] at h
      cases h
    | some next =>
      obtain ⟨u, accesses'⟩ := next
      cases rest : runBlock block u with
      | none =>
        simp only [first, rest] at h
        cases h
      | some final =>
        obtain ⟨v, accesses''⟩ := final
        simp only [first, rest] at h
        cases h
        have onward := placed.tail
        rw [← effect_pc first] at onward
        exact .step (step_effect placed.head first) (ih onward rest)

end Blocks

end RiscvLab.Lib.Assembly
