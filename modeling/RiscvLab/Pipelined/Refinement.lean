import RiscvLab.Pipelined.Simulation

/-!
# The pipeline refines the sequential machine

As long as the instructions that come to E are supported, the simulation holds in every
cycle of a run from reset. The writes of the W and M stages therefore come out in
sequential order, and those that are still missing are the ones that M and W are about
to do.
-/
namespace RiscvLab.Pipelined
open RiscvLab.Lib.ByteMemory RiscvLab.Lib.Run RiscvLab.Lib.Schedule RiscvLab.Hdl RiscvLab.Rv32i

section Assumptions

variable (imem : Ram) (init : Arch)

/-- Sequential execution meets only supported instructions, aligned accesses
inside `dmem` and aligned targets inside `imem`. -/
def SupportedRun : Prop := ∀ k, Supported imem (seqRun imem init k)

/-- No `jalr` that is executed adds up an odd address. -/
def JalrEvenRun : Prop :=
  ∀ k i, fetch imem (seqRun imem init k) = some i → JalrEven (seqRun imem init k) i

/-- The first `K` instructions are supported, no `jalr` among them adds up an odd address,
and the address behind them is inside `imem`. -/
structure SupportedTo (K : Nat) : Prop where
  before : ∀ k < K, Supported imem (seqRun imem init k)
  even : ∀ k < K, ∀ i, fetch imem (seqRun imem init k) = some i →
    JalrEven (seqRun imem init k) i
  inside : (indexOf (seqRun imem init K).pc).toNat < depth

end Assumptions

section Step

variable {imem : Ram} {x : Undef} {init a : Arch} {s : Top} {K : Nat}

theorem Simulates.issues (h : Simulates imem a 0 s) (ok : Supported imem a) :
    ∃ xd i, fetch imem a = some i ∧ Issues xd x (wordOf imem a) i a s := by
  obtain ⟨⟨xd, holds⟩, -, -, safe⟩ := h.front
  obtain ⟨i, legal, noAuipc, dataOk⟩ := ok.legal
  have enc : Encodes (wordOf imem a) i := encodes_of_decode legal
  exact ⟨xd, i, legal, Pipelined.issues enc holds safe h.regs h.mem noAuipc dataOk⟩

theorem gap_eq {k : Nat} {i : Instr} (legal : fetch imem (seqRun imem init k) = some i) :
    gap imem init k =
      if taken (seqRun imem init k) i then 3
      else if isLoadOrLui i &&
          (rs1 (wordOf imem (seqRun imem init (k + 1))) == rd (wordOf imem (seqRun imem init k)) ||
            rs2 (wordOf imem (seqRun imem init (k + 1))) == rd (wordOf imem (seqRun imem init k)))
        then 2
      else 1 := by
  have decodes : decode (wordOf imem (seqRun imem init k)) = some i := legal
  rw [gap]
  simp only [decodes]

theorem SupportedRun.to (supported : SupportedRun imem init)
    (even : JalrEvenRun imem init) (K : Nat) : SupportedTo imem init K :=
  ⟨fun k _ => supported k, fun k _ => even k, (supported K).inside⟩

theorem SupportedTo.inside_of_le (supported : SupportedTo imem init K) {k : Nat} (le : k ≤ K) :
    (indexOf (seqRun imem init k).pc).toNat < depth := by
  rcases Nat.lt_or_eq_of_le le with before | rfl
  · exact (supported.before k before).inside
  · exact supported.inside

theorem SupportedTo.mono (supported : SupportedTo imem init K) {k : Nat} (le : k ≤ K) :
    SupportedTo imem init k :=
  ⟨fun j before => supported.before j (Nat.lt_of_lt_of_le before le),
    fun j before => supported.even j (Nat.lt_of_lt_of_le before le), supported.inside_of_le le⟩

/-- Before instruction `K` is in E, one clock cycle takes the simulation to the next slot. -/
theorem Simulates.clock (supported : SupportedTo imem init K) {slot : Slot}
    (h : Simulates imem (seqRun imem init slot.index) slot.wait s)
    (open' : slot.index < K ∨ slot.index = K ∧ slot.wait ≠ 0) :
    Simulates imem (seqRun imem init (next (gap imem init) slot).index)
      (next (gap imem init) slot).wait (s.clock imem x) := by
  obtain ⟨k, wait⟩ := slot
  have le : k ≤ K := by
    rcases open' with before | ⟨last, -⟩
    · exact Nat.le_of_lt before
    · exact Nat.le_of_eq last
  match wait with
  | 0 =>
    have before : k < K := open'.resolve_right (fun last => last.2 rfl)
    obtain ⟨xd, i, legal, issues⟩ := h.issues (x := x) (supported.before k before)
    have after := seqRun_succ legal
    have insideNext : (indexOf (nextPc (seqRun imem init k) i)).toNat < depth := by
      have inside := supported.inside_of_le before
      rw [after] at inside
      exact inside
    have left := h.leave issues (supported.even k before i legal) insideNext
    have waits : (next (gap imem init) ⟨k, 0⟩).wait = gap imem init k - 1 := rfl
    rw [← after] at left
    rw [waits, gap_eq legal]
    by_cases way : taken (seqRun imem init k) i = true
    · rw [if_pos way] at left ⊢
      exact left
    · rw [if_neg way] at left ⊢
      split at left
      next used => rwa [if_pos used]
      next free => rwa [if_neg free]
  | 1 => exact h.execute (supported.inside_of_le le)
  | 2 => exact h.decode
  | _ + 3 => exact h.front.elim

end Step

section Run

variable {imem : Ram} {rf : RegArray} {dmem : Ram} {K : Nat}

theorem reset_simulates (imem : Ram) (rf : RegArray) (dmem : Ram) :
    Simulates imem (seqInit rf dmem) 2 (Top.reset rf dmem) := by
  refine ⟨fun _ => rfl, fun _ index _ => ?_, ⟨rfl, rfl⟩, rfl, rfl⟩
  exact (wordAt_bytesOf dmem index).symm

/-- Until instruction `K` is in E the pipeline stands for the state its slot names. -/
theorem topRun_simulates (supported : SupportedTo imem (seqInit rf dmem) K) (x : Nat → Undef)
    (n : Nat) (within : n ≤ executeCycle imem (seqInit rf dmem) K) :
    Simulates imem
      (seqRun imem (seqInit rf dmem) (slotAt (gap imem (seqInit rf dmem)) 2 n).index)
      (slotAt (gap imem (seqInit rf dmem)) 2 n).wait (topRun imem x rf dmem n) :=
  run_invariant_to
    (fun n => Simulates imem
      (seqRun imem (seqInit rf dmem) (slotAt (gap imem (seqInit rf dmem)) 2 n).index)
      (slotAt (gap imem (seqInit rf dmem)) 2 n).wait)
    (reset_simulates imem rf dmem)
    (fun _ before h =>
      h.clock supported (slotAt_open 2 (gap_positive imem (seqInit rf dmem)) before))
    n within

/-- When instruction `K` is in E the pipeline stands for the state before it. -/
theorem executeCycle_simulates (supported : SupportedTo imem (seqInit rf dmem) K)
    (x : Nat → Undef) : Simulates imem (seqRun imem (seqInit rf dmem) K) 0
      (topRun imem x rf dmem (executeCycle imem (seqInit rf dmem) K)) := by
  have simulates := topRun_simulates supported x _ (Nat.le_refl _)
  have slot := (slotAt_eq_iff 2 (gap_positive imem (seqInit rf dmem))
    (executeCycle imem (seqInit rf dmem) K) K).mpr rfl
  rwa [slot] at simulates

end Run

section Events

variable {imem : Ram} {x x' : Undef} {init a : Arch} {xd : Undef} {w : Word} {i : Instr} {s : Top}
  {K : Nat}

theorem Issues.regWritesM (h : Issues xd x w i a s) :
    (s.clock imem x).regWritesM x' = regEvents a i := by
  rw [Top.regWritesM, regEvents, ← h.regResult imem x']
  cases (s.clock imem x).core.controlregM.regWriteM with
  | false => rfl
  | true =>
    by_cases zero : (s.clock imem x).core.regM.rdM = 0
    · simp [zero]
    · simp

theorem Core.Bubble.regWritesM (h : s.core.Bubble) : (s.clock imem x).regWritesM x' = [] := by
  have idle : (s.clock imem x).core.controlregM.regWriteM = false :=
    congrArg ControlRegE.regWriteE h.control
  rw [Top.regWritesM, idle]
  rfl

theorem Core.Bubble.memWrites (h : s.core.Bubble) : (s.clock imem x).memWrites x' = [] := by
  rw [Top.memWrites, h.memWriteM]
  rfl

theorem Front.bubble {wait : Nat} (h : Front imem a s.core (wait + 1)) : s.core.Bubble := by
  match wait with
  | 0 | 1 => exact h.1
  | _ + 2 => exact h.elim

/-- Whatever enters M adds its sequential events to those that are pending. -/
theorem Simulates.events (x x' : Undef) (supported : SupportedTo imem init K) {slot : Slot}
    (h : Simulates imem (seqRun imem init slot.index) slot.wait s)
    (open' : slot.index < K ∨ slot.index = K ∧ slot.wait ≠ 0) :
    regTrace imem init (next (gap imem init) slot).index =
        regTrace imem init slot.index ++ (s.clock imem x).regWritesM x' ∧
      memTrace imem init (next (gap imem init) slot).index =
        memTrace imem init slot.index ++ (s.clock imem x).memWrites x' := by
  obtain ⟨k, wait⟩ := slot
  cases wait with
  | zero =>
    have before : k < K := open'.resolve_right (fun last => last.2 rfl)
    obtain ⟨xd, i, legal, issues⟩ := h.issues (x := x) (supported.before k before)
    rw [issues.regWritesM, issues.memWrites]
    exact ⟨regTrace_succ legal, memTrace_succ legal⟩
  | succ wait =>
    have bubble := h.front.bubble
    rw [bubble.regWritesM, bubble.memWrites, List.append_nil, List.append_nil]
    exact ⟨rfl, rfl⟩

end Events

section Traces

variable {imem : Ram} {rf : RegArray} {dmem : Ram} {K : Nat}

/-- What enters M in a cycle before instruction `K` is in E. -/
theorem topRun_events (supported : SupportedTo imem (seqInit rf dmem) K) (x : Nat → Undef)
    {n : Nat} (before : n < executeCycle imem (seqInit rf dmem) K) :
    regTrace imem (seqInit rf dmem) (slotAt (gap imem (seqInit rf dmem)) 2 (n + 1)).index =
        regTrace imem (seqInit rf dmem) (slotAt (gap imem (seqInit rf dmem)) 2 n).index ++
          (topRun imem x rf dmem (n + 1)).regWritesM (x (n + 1)) ∧
      memTrace imem (seqInit rf dmem) (slotAt (gap imem (seqInit rf dmem)) 2 (n + 1)).index =
        memTrace imem (seqInit rf dmem) (slotAt (gap imem (seqInit rf dmem)) 2 n).index ++
          (topRun imem x rf dmem (n + 1)).memWrites (x (n + 1)) :=
  (topRun_simulates supported x n (Nat.le_of_lt before)).events (x n) (x (n + 1)) supported
    (slotAt_open 2 (gap_positive imem (seqInit rf dmem)) before)

/-- The W stage has written all but the registers that M and W hold. -/
theorem topRegTrace_append (supported : SupportedTo imem (seqInit rf dmem) K) (x : Nat → Undef)
    (n : Nat) (within : n ≤ executeCycle imem (seqInit rf dmem) K) :
    topRegTrace imem x rf dmem n ++
        ((topRun imem x rf dmem n).regWrites ++ (topRun imem x rf dmem n).regWritesM (x n)) =
      regTrace imem (seqInit rf dmem) (slotAt (gap imem (seqInit rf dmem)) 2 n).index := by
  refine trace_append_pending
    (fun n => (topRun imem x rf dmem n).regWrites ++ (topRun imem x rf dmem n).regWritesM (x n))
    (fun n => regTrace imem (seqInit rf dmem) (slotAt (gap imem (seqInit rf dmem)) 2 n).index)
    rfl (fun n before => ?_) n within
  refine ⟨_, (topRun_events supported x before).1, ?_⟩
  exact (List.append_assoc _ _ _).symm

/-- The M stage has stored all but the word that it holds. -/
theorem topMemTrace_append (supported : SupportedTo imem (seqInit rf dmem) K) (x : Nat → Undef)
    (n : Nat) (within : n ≤ executeCycle imem (seqInit rf dmem) K) :
    topMemTrace imem x rf dmem n ++ (topRun imem x rf dmem n).memWrites (x n) =
      memTrace imem (seqInit rf dmem) (slotAt (gap imem (seqInit rf dmem)) 2 n).index := by
  refine trace_append_pending (fun n => (topRun imem x rf dmem n).memWrites (x n))
    (fun n => memTrace imem (seqInit rf dmem) (slotAt (gap imem (seqInit rf dmem)) 2 n).index)
    rfl (fun n before => ?_) n within
  exact ⟨_, (topRun_events supported x before).2, rfl⟩

/-- As long as no `jalr` that has come to E has added up an odd address, the register and
memory writes done so far are a prefix of the sequential machine's. A run that is supported
throughout is so to any `K` (`SupportedRun.to`), and instruction `K` is not in E before cycle
`K`, so that no cycle is left out. -/
theorem traces_prefix (imem : Ram) (rf : RegArray) (dmem : Ram) (K : Nat)
    (supported : SupportedTo imem (seqInit rf dmem) K) (x : Nat → Undef) (n : Nat)
    (within : n ≤ executeCycle imem (seqInit rf dmem) K) :
    ∃ k, topRegTrace imem x rf dmem n <+: regTrace imem (seqInit rf dmem) k ∧
      topMemTrace imem x rf dmem n <+: memTrace imem (seqInit rf dmem) k :=
  ⟨_, ⟨_, topRegTrace_append supported x n within⟩, ⟨_, topMemTrace_append supported x n within⟩⟩

end Traces

section JalrProgram

/-- A jump through `x1`, a link into `x2` and a branch on the link's lowest bit. -/
def jalrProgram (odd : Bool) : Ram := fun index =>
  match index.toNat with
  | 0 => if odd then 0x00900093 else 0x00800093 -- addi x1, x0, 9; addi x1, x0, 8
  | 1 => 0x00008067 -- jalr x0, 0(x1)
  | 2 => 0x0040016f -- jal x2, 4
  | 3 => 0x00117193 -- andi x3, x2, 1
  | 4 => 0x00019463 -- bne x3, x0, 8
  | _ => 0x00000063 -- beq x0, x0, 0

def jalrInstrs (odd : Bool) : Nat → Instr
  | 0 => .imm .add 1 0 (if odd then 9 else 8)
  | 1 => .jalr 0 1 0
  | 2 => .jal 2 4
  | 3 => .imm .and 3 2 1
  | 4 => .branch .bne 3 0 8
  | _ => .branch .beq 0 0 0

/-- Registers and data all zero. -/
def zeroInit : Arch := seqInit (fun _ => 0) (fun _ => 0)

theorem jalrProgram_legal (odd : Bool) : ∀ k < 6,
    fetch (jalrProgram odd) (seqRun (jalrProgram odd) zeroInit k) = some (jalrInstrs odd k) := by
  revert odd
  decide +kernel

theorem jalrProgram_loop (odd : Bool) : step (jalrProgram odd)
    (seqRun (jalrProgram odd) zeroInit 5) = seqRun (jalrProgram odd) zeroInit 5 := by
  have stays : nextPc (seqRun (jalrProgram odd) zeroInit 5) (.branch .beq 0 0 0) =
      (seqRun (jalrProgram odd) zeroInit 5).pc := by
    revert odd
    decide +kernel
  rw [step, jalrProgram_legal odd 5 (by decide)]
  exact congrArg (fun pc => Arch.mk pc _ _) stays

/-- From its sixth instruction on, the program stays where it is. -/
theorem jalrProgram_late (odd : Bool) (k : Nat) : seqRun (jalrProgram odd) zeroInit k =
    seqRun (jalrProgram odd) zeroInit (min k 5) := by
  by_cases early : k ≤ 5
  · rw [Nat.min_eq_left early]
  · have loop := run_fixed (fun _ : Unit => jalrProgram_loop odd) (k - 5)
    rw [Nat.add_sub_cancel' (by omega)] at loop
    rw [Nat.min_eq_right (by omega)]
    exact loop

theorem jalrProgram_supported (odd : Bool) : SupportedRun (jalrProgram odd) zeroInit := by
  intro k
  rw [jalrProgram_late]
  have bound : min k 5 < 6 := by omega
  generalize min k 5 = k at bound
  have legal := jalrProgram_legal odd k bound
  refine ⟨?_, ?_, _, legal, ?_, ?_⟩
  · revert odd k
    decide +kernel
  · revert odd k
    decide +kernel
  · revert odd k
    decide +kernel
  · match k with
    | 0 | 1 | 2 | 3 | 4 | _ + 5 => intro _ _ accesses; cases accesses

theorem jalrProgram_even : JalrEvenRun (jalrProgram false) zeroInit := by
  intro k i
  rw [jalrProgram_late]
  have bound : min k 5 < 6 := by omega
  generalize min k 5 = k at bound
  rw [jalrProgram_legal false k bound]
  rintro ⟨⟩ d r1 imm jalr
  match k with
  | 0 | 2 | 3 | 4 | _ + 5 => cases jalr
  | 1 =>
    cases jalr
    decide +kernel

/-- With `x1 = 8` the core does what the sequential machine does. -/
theorem traces_prefix_even : ∃ k,
    topRegTrace (jalrProgram false) (fun _ => default) (fun _ => 0) (fun _ => 0) 10 <+:
      regTrace (jalrProgram false) zeroInit k ∧
    topMemTrace (jalrProgram false) (fun _ => default) (fun _ => 0) (fun _ => 0) 10 <+:
      memTrace (jalrProgram false) zeroInit k :=
  traces_prefix (jalrProgram false) _ _ 6 ((jalrProgram_supported false).to jalrProgram_even 6) _ 10
    (by decide +kernel)

theorem jalrProgram_regTrace (k : Nat) :
    ¬ [(1, 9), (2, 13)] <+: regTrace (jalrProgram true) zeroInit k := by
  have short : ∀ k < 6, ¬ [(1, 9), (2, 13)] <+: regTrace (jalrProgram true) zeroInit k := by
    decide +kernel
  by_cases early : k < 6
  · exact short k early
  · have silent : ((fetch (jalrProgram true) (seqRun (jalrProgram true) zeroInit 5)).map
        (regEvents (seqRun (jalrProgram true) zeroInit 5))).getD [] = [] := by
      rw [jalrProgram_legal true 5 (by decide)]
      rfl
    have ends : regTrace (jalrProgram true) zeroInit (5 + (k - 5)) =
        regTrace (jalrProgram true) zeroInit 5 :=
      trace_fixed (fun _ => jalrProgram_loop true) (fun _ => silent) (k - 5)
    rw [Nat.add_sub_cancel' (by omega)] at ends
    rw [ends]
    exact short 5 (by decide)

/-- With `x1 = 9` the architecture jumps to 8 and links 12; the core goes to 9 and links 13. -/
theorem traces_not_prefix_odd : SupportedRun (jalrProgram true) zeroInit ∧ ¬ ∃ k,
    topRegTrace (jalrProgram true) (fun _ => default) (fun _ => 0) (fun _ => 0) 10 <+:
      regTrace (jalrProgram true) zeroInit k ∧
    topMemTrace (jalrProgram true) (fun _ => default) (fun _ => 0) (fun _ => 0) 10 <+:
      memTrace (jalrProgram true) zeroInit k := by
  have written : topRegTrace (jalrProgram true) (fun _ => default) (fun _ => 0) (fun _ => 0) 10 =
      [(1, 9), (2, 13)] := by decide +kernel
  refine ⟨jalrProgram_supported true, ?_⟩
  rintro ⟨k, registers, -⟩
  rw [written] at registers
  exact jalrProgram_regTrace k registers

end JalrProgram

end RiscvLab.Pipelined
