import RiscvLab.Single.Memory
import RiscvLab.SingleBoard.Handshake

/-!
# Waiting for memory in the single-cycle core

`PCReady` gates the program counter but not the register file: while a load waits,
every rising edge writes what `readDataM` shows to its destination. A store of a
byte or half-word also passes on the bits of `readDataM` that it keeps.
-/
namespace RiscvLab.SingleBoard
open RiscvLab.Lib.ByteMemory RiscvLab.Lib.Run RiscvLab.Hdl RiscvLab.Rv32i RiscvLab.Single
open RiscvLab.Board (MemState)

section StoreUnit

/-- In two cycles `Write_line` of a store takes the same bits from elsewhere than
`rs2`. To the highest lane the byte goes one place too far left, and a misaligned
half-word is undefined as a whole. -/
def SameSource (op : StoreOp) (lane : BitVec 2) (now next : Input) : Prop :=
  match op with
  | .sb =>
    if lane = 3 then now.readDataM.extractLsb' 0 25 = next.readDataM.extractLsb' 0 25
    else ∀ other, other ≠ lane → byteOf now.readDataM other = byteOf next.readDataM other
  | .sh =>
    if lane = 0 ∨ lane = 2 then ∀ other, other ≠ lane → other ≠ lane + 1 →
      byteOf now.readDataM other = byteOf next.readDataM other
    else now.undef.storeLane = next.undef.storeLane
  | .sw => True

/-- Two merges of one value agree if the old words agree on the other lanes. -/
theorem mergeBytes_eq_iff (w w' v : Word) (first : BitVec 2) (count : Nat) :
    mergeBytes w first count v = mergeBytes w' first count v ↔
      ∀ lane, ¬ (first.toNat ≤ lane.toNat ∧ lane.toNat < first.toNat + count) →
        byteOf w lane = byteOf w' lane := by
  constructor
  · intro same lane outside
    have byte : byteOf (mergeBytes w first count v) lane =
        byteOf (mergeBytes w' first count v) lane := by rw [same]
    rw [mergeBytes, mergeBytes, byteOf_ofBytes, byteOf_ofBytes, if_neg outside,
      if_neg outside] at byte
    exact byte
  · intro same
    apply word_ext
    intro lane
    rw [mergeBytes, mergeBytes, byteOf_ofBytes, byteOf_ofBytes]
    by_cases inside : first.toNat ≤ lane.toNat ∧ lane.toNat < first.toNat + count
    · rw [if_pos inside, if_pos inside]
    · rw [if_neg inside, if_neg inside]
      exact same lane inside

theorem topByte_eq_iff (w w' v : Word) :
    (v.extractLsb' 0 8 ++ w.extractLsb' 0 25).setWidth 32 =
        (v.extractLsb' 0 8 ++ w'.extractLsb' 0 25).setWidth 32 ↔
      w.extractLsb' 0 25 = w'.extractLsb' 0 25 := by
  have low : ∀ u : Word, ((v.extractLsb' 0 8 ++ u.extractLsb' 0 25).setWidth 32).extractLsb' 0 25 =
      u.extractLsb' 0 25 := by
    intro u
    ext i hi
    grind
  constructor
  · intro same
    rw [← low w, same, low w']
  · intro same
    rw [same]

section Lines

variable (now next : Input) (a v : Word)

theorem writeLine_byte_iff :
    writeLine now.undef 0#3 a now.readDataM v = writeLine next.undef 0#3 a next.readDataM v ↔
      SameSource .sb (laneOf a) now next := by
  by_cases top : laneOf a = 3
  · have shape : ∀ input : Input, writeLine input.undef 0#3 a input.readDataM v =
        (v.extractLsb' 0 8 ++ input.readDataM.extractLsb' 0 25).setWidth 32 := by
      intro input
      unfold laneOf at top
      unfold writeLine
      rw [top]
      rfl
    rw [shape now, shape next, topByte_eq_iff, SameSource, if_pos top]
  · have shape : ∀ input : Input, writeLine input.undef 0#3 a input.readDataM v =
        mergeBytes input.readDataM (laneOf a) 1 v := by
      intro input
      have aligned : Aligned (StoreOp.size .sb) a := Nat.mod_one a.toNat
      have other : ¬ (StoreOp.sb = .sb ∧ laneOf a = 3) := fun both => top both.2
      rw [writeLine_unit input.undef input.readDataM v rfl aligned other, StoreOp.size]
    have outside : ∀ lane other : BitVec 2,
        ¬ (lane.toNat ≤ other.toNat ∧ other.toNat < lane.toNat + 1) ↔ other ≠ lane := by decide
    rw [shape now, shape next, mergeBytes_eq_iff, SameSource, if_neg top]
    exact forall_congr' fun other => imp_congr_left (outside (laneOf a) other)

theorem writeLine_half_iff :
    writeLine now.undef 1#3 a now.readDataM v = writeLine next.undef 1#3 a next.readDataM v ↔
      SameSource .sh (laneOf a) now next := by
  by_cases even : laneOf a = 0 ∨ laneOf a = 2
  · have shape : ∀ input : Input, writeLine input.undef 1#3 a input.readDataM v =
        mergeBytes input.readDataM (laneOf a) 2 v := by
      intro input
      rw [← storeHalf_eq input.readDataM v input.undef.storeLane even]
      rfl
    have outside : ∀ lane : BitVec 2, lane = 0 ∨ lane = 2 → ∀ other : BitVec 2,
        ¬ (lane.toNat ≤ other.toNat ∧ other.toNat < lane.toNat + 2) ↔
          (other ≠ lane ∧ other ≠ lane + 1) := by decide
    rw [shape now, shape next, mergeBytes_eq_iff, SameSource, if_pos even]
    refine forall_congr' fun other => ?_
    rw [outside (laneOf a) even other, and_imp]
  · have shape : ∀ input : Input, writeLine input.undef 1#3 a input.readDataM v =
        input.undef.storeLane := by
      intro input
      change storeHalf _ _ (laneOf a) v = _
      revert even
      generalize laneOf a = lane
      revert lane
      exact forall_lane.mpr ⟨fun no => absurd (.inl rfl) no, fun _ => rfl,
        fun no => absurd (.inr rfl) no, fun _ => rfl⟩
    rw [shape now, shape next, SameSource, if_neg even]

theorem writeLine_eq_iff {f3 : BitVec 3} {op : StoreOp} (h : storeOp f3 = some op) :
    writeLine now.undef f3 a now.readDataM v = writeLine next.undef f3 a next.readDataM v ↔
      SameSource op (laneOf a) now next := by
  unfold storeOp at h
  split at h <;> cases h
  · exact writeLine_byte_iff now next a v
  · exact writeLine_half_iff now next a v
  · exact iff_of_true rfl trivial

end Lines

end StoreUnit

section Run

variable (imem : Ram) (input : Nat → Input) (rf : RegArray)

/-- Every instruction that the run executes is an RV32I one. -/
def Legal : Prop := ∀ n, ∃ i, (topRun imem input rf n).executes imem = some i

/-- The register file changes only on edges where `PCReady` is 1. -/
def Frozen : Prop :=
  ∀ n, (topRun imem input rf n).pcReady imem (input n) = false →
    ∀ r, regRead (topRun imem input rf (n + 1)).core.rf r =
      regRead (topRun imem input rf n).core.rf r

/-- From its `AXIStart` pulse until the program counter is updated a load keeps
`addressM`, and a store keeps `addressM` and `writeDataM`. -/
def Stable : Prop :=
  ∀ n m, (topRun imem input rf n).starts imem (input n) = true → Waits imem input rf n m →
    (topRun imem input rf m).addressM imem (input m) =
        (topRun imem input rf n).addressM imem (input n) ∧
      ∀ i, (topRun imem input rf n).executes imem = some i → isStore i = true →
        (topRun imem input rf m).writeDataM imem (input m) =
          (topRun imem input rf n).writeDataM imem (input n)

/-- While a load waits, what it would load is already in its destination. -/
def LoadsHeld : Prop :=
  ∀ n, (topRun imem input rf n).pcReady imem (input n) = false →
    ∀ op d r1 imm, (topRun imem input rf n).executes imem = some (.load op d r1 imm) → d ≠ 0 →
      Single.loadLine (input n).undef (funct3 ((topRun imem input rf n).instr imem))
          (regRead (topRun imem input rf n).core.rf r1 + imm) (input n).readDataM =
        regRead (topRun imem input rf n).core.rf d

/-- While a store waits, `readDataM` does not change in the bits that it keeps. -/
def StoresHeld : Prop :=
  ∀ n, (topRun imem input rf n).pcReady imem (input n) = false →
    ∀ op r1 r2 imm, (topRun imem input rf n).executes imem = some (.store op r1 r2 imm) →
      SameSource op (laneOf (regRead (topRun imem input rf n).core.rf r1 + imm)) (input n)
        (input (n + 1))

variable {imem input rf} {n : Nat} {i : Instr}

/-- Every cycle belongs to an instruction that began before it. -/
theorem exists_begins (n : Nat) : ∃ s, Begins imem input rf s ∧ Waits imem input rf s n := by
  induction n with
  | zero =>
    refine ⟨0, ?_, Nat.le_refl 0, fun j after before => by omega⟩
    intro k impossible
    cases impossible
  | succ n ih =>
    cases ready : (topRun imem input rf n).pcReady imem (input n) with
    | true =>
      refine ⟨n + 1, ?_, Nat.le_refl _, fun j after before => by omega⟩
      intro k same
      cases same
      exact ready
    | false =>
      obtain ⟨s, begins, after, waiting⟩ := ih
      refine ⟨s, begins, Nat.le_succ_of_le after, fun j later earlier => ?_⟩
      by_cases last : j = n
      · rw [last]
        exact ready
      · exact waiting j later (by omega)

/-- Only loads and stores wait. -/
theorem memory_of_waiting (waiting : (topRun imem input rf n).pcReady imem (input n) = false)
    (here : (topRun imem input rf n).executes imem = some i) : isMemory i = true := by
  obtain ⟨s, begins, waits⟩ := exists_begins n
  rw [waits.executes] at here
  by_contra other
  obtain ⟨rfl, ready⟩ := other_leaves begins here (by simpa using other) waits
  rw [waiting] at ready
  cases ready

theorem Waits.step (waiting : (topRun imem input rf n).pcReady imem (input n) = false) :
    Waits imem input rf n (n + 1) := by
  refine ⟨Nat.le_succ n, fun j after before => ?_⟩
  obtain rfl : j = n := by omega
  exact waiting

/-- A write changes no register if it is to register 0 or of the value already there. -/
theorem write_held_iff (array : RegArray) (d : Reg) (v : Word) :
    (∀ r, regRead (regWrite array true d v) r = regRead array r) ↔
      (d ≠ 0 → v = regRead array d) := by
  constructor
  · intro held nonzero
    have here := held d
    rw [regRead, if_pos nonzero, regWrite_apply] at here
    simpa using here
  · intro same r
    unfold regRead
    split
    · rw [regWrite_apply]
      by_cases dest : r = d
      · subst dest
        rename_i nonzero
        have value := same nonzero
        rw [regRead, if_pos nonzero] at value
        simp [value]
      · simp [dest]
    · rfl

section Signals

variable {s : Top} {t : Input} {op : LoadOp} {kind : StoreOp} {d r1 r2 : Reg} {imm : Word}

theorem addressM_load (here : s.executes imem = some (.load op d r1 imm)) :
    s.addressM imem t = regRead s.core.rf r1 + imm := by
  rw [regRead_eq]
  exact Core.aluResult_access t.undef s.core (fun _ => 0) (encodes_of_decode here) rfl

theorem addressM_store (here : s.executes imem = some (.store kind r1 r2 imm)) :
    s.addressM imem t = regRead s.core.rf r1 + imm := by
  rw [regRead_eq]
  exact Core.aluResult_access t.undef s.core (fun _ => 0) (encodes_of_decode here) rfl

theorem writeDataM_store (here : s.executes imem = some (.store kind r1 r2 imm)) :
    s.writeDataM imem t = writeLine t.undef (funct3 (s.instr imem))
      (regRead s.core.rf r1 + imm) t.readDataM (regRead s.core.rf r2) := by
  have address : s.core.aluResult t.undef (s.instr imem) = _ := addressM_store (t := t) here
  obtain ⟨store, -, -, rfl, -⟩ := encodes_of_decode here
  have opcode : (BitVec.extractLsb' 0 7 (s.instr imem) == 0b0100011) = true := by
    rw [beq_iff_eq]
    exact store
  rw [Top.writeDataM, Core.writeData, opcode, address]
  rfl

/-- A waiting load writes its destination on every edge. -/
theorem clock_load_iff (here : s.executes imem = some (.load op d r1 imm)) :
    (∀ r, regRead (s.clock imem t).core.rf r = regRead s.core.rf r) ↔
      (d ≠ 0 → Single.loadLine t.undef (funct3 (s.instr imem)) (regRead s.core.rf r1 + imm)
        t.readDataM = regRead s.core.rf d) := by
  have enc := encodes_of_decode here
  have address : s.core.aluResult t.undef (s.instr imem) = _ := addressM_load (t := t) here
  have source : (Core.controls t.undef (s.instr imem)).resultSrc = 0b01 :=
    congrArg Decoded.resultSrc (Core.controls_decoded t.undef enc)
  have line : s.core.loadLine t.undef (s.instr imem) t.readDataM = Single.loadLine t.undef
      (funct3 (s.instr imem)) (s.core.aluResult t.undef (s.instr imem)) t.readDataM := if_pos enc.1
  have result : s.core.result t.undef (s.instr imem) t.readDataM = Single.loadLine t.undef
      (funct3 (s.instr imem)) (regRead s.core.rf r1 + imm) t.readDataM := by
    rw [Core.result, source, line, address]
    rfl
  obtain ⟨-, -, dest, -, -⟩ := enc
  have written : (s.clock imem t).core.rf = regWrite s.core.rf
      (controls t (s.instr imem)).regWrite (rd (s.instr imem)) _ := rfl
  rw [written, regWrite_decoded t (encodes_of_decode here), ← dest, result]
  exact write_held_iff s.core.rf d _

theorem clock_store (here : s.executes imem = some (.store kind r1 r2 imm)) :
    (s.clock imem t).core.rf = s.core.rf := by
  have written : (s.clock imem t).core.rf = regWrite s.core.rf
      (controls t (s.instr imem)).regWrite (rd (s.instr imem)) _ := rfl
  rw [written, regWrite_decoded t (encodes_of_decode here)]
  rfl

end Signals

theorem frozen_iff (legal : Legal imem input rf) :
    Frozen imem input rf ↔ LoadsHeld imem input rf := by
  constructor
  · intro frozen n waiting op d r1 imm here
    exact (clock_load_iff here).mp (frozen n waiting)
  · intro held n waiting
    obtain ⟨i, here⟩ := legal n
    have memory := memory_of_waiting waiting here
    cases i with
    | load op d r1 imm => exact (clock_load_iff here).mpr (held n waiting op d r1 imm here)
    | store op r1 r2 imm =>
      intro r
      exact congrArg (regRead · r) (clock_store here)
    | reg | imm | branch | jal | jalr | lui | auipc => cases memory

variable {m : Nat}

theorem Frozen.waits (frozen : Frozen imem input rf) (waits : Waits imem input rf n m) (r : Reg) :
    regRead (topRun imem input rf m).core.rf r = regRead (topRun imem input rf n).core.rf r := by
  obtain ⟨after, waiting⟩ := waits
  induction m, after using Nat.le_induction with
  | base => rfl
  | succ m after ih =>
    have now := frozen m (waiting m after (Nat.lt_succ_self m)) r
    exact now.trans (ih (fun j later earlier => waiting j later (Nat.lt_succ_of_lt earlier)))

/-- With the registers frozen, a waiting store keeps `writeDataM` over an edge if and
only if the bits from elsewhere stay the same. -/
theorem writeDataM_step_iff (frozen : Frozen imem input rf) {op : StoreOp} {r1 r2 : Reg}
    {imm : Word}
    (waiting : (topRun imem input rf n).pcReady imem (input n) = false)
    (here : (topRun imem input rf n).executes imem = some (.store op r1 r2 imm)) :
    (topRun imem input rf (n + 1)).writeDataM imem (input (n + 1)) =
        (topRun imem input rf n).writeDataM imem (input n) ↔
      SameSource op (laneOf (regRead (topRun imem input rf n).core.rf r1 + imm)) (input n)
        (input (n + 1)) := by
  have step := Waits.step waiting
  rw [writeDataM_store here, writeDataM_store (step.executes.trans here), step.instr,
    frozen n waiting r1, frozen n waiting r2,
    ← writeLine_eq_iff (input n) (input (n + 1)) _ _ (encodes_of_decode here).2.1]
  exact eq_comm

theorem addressM_waits (frozen : Frozen imem input rf) (waits : Waits imem input rf n m)
    (here : (topRun imem input rf n).executes imem = some i) (memory : isMemory i = true) :
    (topRun imem input rf m).addressM imem (input m) =
      (topRun imem input rf n).addressM imem (input n) := by
  cases i with
  | load op d r1 imm =>
    rw [addressM_load here, addressM_load (waits.executes.trans here), frozen.waits waits r1]
  | store op r1 r2 imm =>
    rw [addressM_store here, addressM_store (waits.executes.trans here), frozen.waits waits r1]
  | reg | imm | branch | jal | jalr | lui | auipc => cases memory

theorem writeDataM_waits (frozen : Frozen imem input rf) (held : StoresHeld imem input rf)
    (waits : Waits imem input rf n m) (here : (topRun imem input rf n).executes imem = some i)
    (store : isStore i = true) : (topRun imem input rf m).writeDataM imem (input m) =
      (topRun imem input rf n).writeDataM imem (input n) := by
  obtain ⟨after, waiting⟩ := waits
  induction m, after using Nat.le_induction with
  | base => rfl
  | succ m after ih =>
    have earlier : Waits imem input rf n m :=
      ⟨after, fun j later sooner => waiting j later (Nat.lt_succ_of_lt sooner)⟩
    have now := waiting m after (Nat.lt_succ_self m)
    have still := earlier.executes.trans here
    cases i with
    | store op r1 r2 imm =>
      exact ((writeDataM_step_iff frozen now still).mpr (held m now op r1 r2 imm still)).trans
        (ih earlier.2)
    | load | reg | imm | branch | jal | jalr | lui | auipc => cases store

theorem stable_iff (legal : Legal imem input rf) (frozen : Frozen imem input rf) :
    Stable imem input rf ↔ StoresHeld imem input rf := by
  constructor
  · intro stable n waiting op r1 r2 imm here
    obtain ⟨s, begins, waits⟩ := exists_begins n
    have first := waits.executes.symm.trans here
    have pulse : (topRun imem input rf s).starts imem (input s) = true :=
      (starts_iff begins first ⟨Nat.le_refl s, fun j after before => by omega⟩).mpr ⟨rfl, rfl⟩
    have longer : Waits imem input rf s (n + 1) := by
      refine ⟨Nat.le_succ_of_le waits.1, fun j after before => ?_⟩
      by_cases last : j = n
      · rw [last]
        exact waiting
      · exact waits.2 j after (by omega)
    rw [← writeDataM_step_iff frozen waiting here]
    exact ((stable s (n + 1) pulse longer).2 _ first rfl).trans
      ((stable s n pulse waits).2 _ first rfl).symm
  · intro held n m pulse waits
    obtain ⟨i, here⟩ := legal n
    obtain ⟨s, begins, before⟩ := exists_begins n
    have memory := ((starts_iff begins (before.executes.symm.trans here) before).mp pulse).2
    refine ⟨addressM_waits frozen waits here memory, fun j same store => ?_⟩
    exact writeDataM_waits frozen held waits same store

/-- In a run of RV32I instructions the registers change only where `PCReady` is 1, and
the address and the data of a transaction are stable, if and only if no waiting load
shows a value that its destination does not already hold, and no bit that a waiting
store keeps changes. -/
theorem wait_frozen_iff (imem : Ram) (input : Nat → Input) (rf : RegArray)
    (legal : Legal imem input rf) :
    (Frozen imem input rf ∧ Stable imem input rf) ↔
      (LoadsHeld imem input rf ∧ StoresHeld imem input rf) := by
  constructor
  · rintro ⟨frozen, stable⟩
    exact ⟨(frozen_iff legal).mp frozen, (stable_iff legal frozen).mp stable⟩
  · rintro ⟨loads, stores⟩
    have frozen := (frozen_iff legal).mpr loads
    exact ⟨frozen, (stable_iff legal frozen).mpr stores⟩

/-- `sb x1, 0(x0)` at every address. -/
def storeByteProgram : Ram := fun _ => 0x00100023

/-- Byte stores with a constant `readDataM` keep everything while they wait. -/
theorem wait_frozen_iff_store :
    Frozen storeByteProgram (fun _ => default) (fun _ => 0x55) ∧
      Stable storeByteProgram (fun _ => default) (fun _ => 0x55) := by
  have always : ∀ n, (topRun storeByteProgram (fun _ => default) (fun _ => 0x55) n).executes
      storeByteProgram = some (.store .sb 0 1 0) := by
    intro n
    have word : decode 0x00100023 = some (.store .sb 0 1 0) := by decide
    exact word
  refine (wait_frozen_iff _ _ _ (fun n => ⟨_, always n⟩)).mpr ⟨?_, ?_⟩
  · intro n waiting op d r1 imm here
    rw [always n] at here
    cases here
  · intro n waiting op r1 r2 imm here
    exact (writeLine_eq_iff default default _ 0 (encodes_of_decode here).2.1).mp rfl

/-- `lw x1, 0(x1)`, then a loop. -/
def aliasProgram : Ram := fun index =>
  match index.toNat with
  | 0 => 0x0000A083 -- lw x1, 0(x1)
  | _ => 0x00000063 -- beq x0, x0, 0

/-- `readDataM` shows 100 while the load of address 0 waits for `doneM` in cycle 4. -/
def aliasInput (n : Nat) : Input :=
  { (default : Input) with readDataM := 100, doneM := decide (4 ≤ n) }

/-- The load overwrites its own base register on the first edge of its wait. -/
theorem wait_not_frozen :
    ¬ Frozen aliasProgram aliasInput (fun _ => 0) ∧
      ¬ Stable aliasProgram aliasInput (fun _ => 0) := by
  constructor
  · intro frozen
    exact absurd (frozen 0 (by decide) 1) (by decide)
  · intro stable
    have waits : Waits aliasProgram aliasInput (fun _ => 0) 0 1 := by
      refine ⟨by decide, fun j _ before => ?_⟩
      obtain rfl : j = 0 := by omega
      decide
    exact absurd (stable 0 1 (by decide) waits).1 (by decide)

end Run

end RiscvLab.SingleBoard
