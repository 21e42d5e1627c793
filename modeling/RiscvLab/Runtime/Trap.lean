import RiscvLab.Runtime.Memory

/-!
# Traps

`trap_entry` of lab1/common/crt.S, for 64-bit registers: it saves all registers below the stack
pointer, calls `handle_trap` with the cause, the program counter and the saved registers, and
resumes where `handle_trap` says, with the registers that then stand in the frame.
-/
namespace RiscvLab.Runtime
open RiscvLab.Lib.BlockCopy

section Words

variable {mem : Memory} {a b v u : Word64}

theorem word_ext (same : ∀ k < 8, wordByte v k = wordByte u k) : v = u := by
  refine BitVec.eq_of_getLsbD_eq fun i inside => ?_
  have byte := congrArg (fun byte => byte.getLsbD (i % 8)) (same (i / 8) (by omega))
  dsimp only [wordByte] at byte
  rw [BitVec.getLsbD_extractLsb', BitVec.getLsbD_extractLsb', Nat.div_add_mod,
    decide_eq_true (Nat.mod_lt i (by decide)), Bool.true_and, Bool.true_and] at byte
  exact byte

/-- A stored word is loaded again. -/
theorem loadWord_storeWord : loadWord (storeWord mem a v) a = v := by
  refine word_ext fun k inside => ?_
  rw [wordByte_loadWord _ _ inside]
  exact store_at inside (by omega)

/-- Words that do not overlap. -/
theorem loadWord_apart (before : 8 ≤ offset a b) (behind : offset a b + 8 ≤ 2 ^ 64) :
    loadWord (storeWord mem b v) a = loadWord mem a := by
  refine word_ext fun k inside => ?_
  rw [wordByte_loadWord _ _ inside, wordByte_loadWord _ _ inside]
  refine store_outside ?_
  have moved : a + BitVec.ofNat 64 k - b = a - b + BitVec.ofNat 64 k := by
    rw [BitVec.sub_eq_add_neg, BitVec.sub_eq_add_neg, BitVec.add_assoc,
      BitVec.add_comm (BitVec.ofNat 64 k), ← BitVec.add_assoc]
  have place : offset (a + BitVec.ofNat 64 k) b = (offset a b + k) % 2 ^ 64 := by
    rw [offset, moved, BitVec.toNat_add, BitVec.toNat_ofNat, Nat.add_mod_mod]
    rfl
  rw [place]
  omega

end Words

/-- The index of the stack pointer. -/
def spIndex : Fin 32 := 2

def MSTATUS_MPP : Word64 := 0x1800

/-- The registers that `trap_entry` works on; `mode` is 3 in machine mode. -/
structure Hart where
  pc : Word64
  regs : Fin 32 → Word64
  mem : Memory
  mepc : Word64
  mcause : Word64
  mstatus : Word64
  mode : BitVec 2

/-- `csrw mepc`: the lowest bit is always zero. -/
def Hart.setMepc (h : Hart) (v : Word64) : Hart := { h with mepc := v &&& ~~~1 }

/-- `mret`: back to `mepc` in the mode `MPP`, with `MIE` from `MPIE`. -/
def Hart.mret (h : Hart) : Hart :=
  { h with
    pc := h.mepc
    mode := h.mstatus.extractLsb' 11 2
    mstatus := h.mstatus &&& ~~~0x1888 ||| 0x80 |||
      (if h.mstatus.getLsbD 7 then 0x8 else 0) }

/-- What `handle_trap` leaves: its result, the memory, and whatever is in the registers. -/
structure Handled where
  result : Word64
  mem : Memory
  regs : Fin 32 → Word64

section Entry

/-- Where the frame has the register of a number: `i*REGBYTES(sp)`. -/
def slot (frame : Word64) (i : Nat) : Word64 := frame + BitVec.ofNat 64 (8 * i)

/-- `SREG` of `x1` to the `n`-th register. -/
def saveRegs (regs : Fin 32 → Word64) (mem : Memory) : Nat → Memory
  | 0 => mem
  | n + 1 => storeWord (saveRegs regs mem n) (slot (regs spIndex) (n + 1))
      (regs (Fin.ofNat 32 (n + 1)))

/-- `LREG` of `x1` to the `n`-th register. The second one reloads the stack pointer, which
the ones behind it use. -/
def restoreRegs (mem : Memory) (regs : Fin 32 → Word64) : Nat → Fin 32 → Word64
  | 0 => regs
  | n + 1 =>
    let regs := restoreRegs mem regs n
    Function.update regs (Fin.ofNat 32 (n + 1)) (loadWord mem (slot (regs spIndex) (n + 1)))

variable (handler : (cause epc regs : Word64) → Memory → Handled) (h : Hart)

/-- The stack pointer after `addi sp, sp, -272`. -/
def Hart.frame : Word64 := h.regs spIndex - 272

/-- The memory that `handle_trap` is called with. -/
def Hart.savedMem : Memory :=
  saveRegs (Function.update h.regs spIndex h.frame) h.mem 31

def Hart.handled : Handled := handler h.mcause h.mepc h.frame h.savedMem

/-- From the trap to the `mret`. A function that returns has restored the stack pointer. -/
def Hart.trapEntry : Hart :=
  let handled := h.handled handler
  let called := Function.update handled.regs spIndex h.frame
  let restored := restoreRegs handled.mem called 31
  let h := { h with mem := handled.mem }.setMepc handled.result
  let h := { h with mstatus := h.mstatus ||| MSTATUS_MPP }
  { h with regs := Function.update restored spIndex (restored spIndex + 272) }.mret

end Entry

section Frame

variable {regs : Fin 32 → Word64} {mem : Memory} {frame : Word64} {i j n : Nat}

theorem register_ne (first : i < 32) (second : j < 32) (different : i ≠ j) :
    Fin.ofNat 32 i ≠ Fin.ofNat 32 j := by
  intro same
  have values := congrArg Fin.val same
  rw [Fin.val_ofNat, Fin.val_ofNat, Nat.mod_eq_of_lt first, Nat.mod_eq_of_lt second] at values
  exact different values

theorem slot_apart (first : i < 32) (second : j < 32) (different : i ≠ j) :
    8 ≤ offset (slot frame i) (slot frame j) ∧
      offset (slot frame i) (slot frame j) + 8 ≤ 2 ^ 64 := by
  have place : offset (slot frame i) frame = 8 * i := offset_self_add frame (by omega)
  rw [slot.eq_1 frame j, offset_add _ _ (show 8 * j ≤ 2 ^ 64 by omega), place]
  split <;> omega

/-- Each register stands in its slot. -/
theorem saveRegs_slot (within : n < 32) (some_register : 0 < i) (saved : i ≤ n) :
    loadWord (saveRegs regs mem n) (slot (regs spIndex) i) = regs (Fin.ofNat 32 i) := by
  induction n with
  | zero => omega
  | succ n ih =>
    rw [saveRegs]
    by_cases last : i = n + 1
    · rw [last, loadWord_storeWord]
    · have apart : 8 ≤ offset (slot (regs spIndex) i) (slot (regs spIndex) (n + 1)) ∧
          offset (slot (regs spIndex) i) (slot (regs spIndex) (n + 1)) + 8 ≤ 2 ^ 64 :=
        slot_apart (by omega) within last
      obtain ⟨before, behind⟩ := apart
      rw [loadWord_apart before behind]
      exact ih (by omega) (by omega)

/-- Nothing outside of the frame is written. -/
theorem saveRegs_outside (within : n < 32) {a : Word64}
    (outside : 272 ≤ offset a (regs spIndex)) : saveRegs regs mem n a = mem a := by
  induction n with
  | zero => rfl
  | succ n ih =>
    have bound := offset_lt a (regs spIndex)
    rw [saveRegs, ← ih (by omega)]
    refine store_outside ?_
    rw [slot, offset_add _ _ (by omega)]
    split <;> omega

/-- Each register is loaded from its slot, if the stack pointer's slot has the frame's address. -/
theorem restoreRegs_slot (within : n < 32)
    (kept : loadWord mem (slot (regs spIndex) 2) = regs spIndex) :
    restoreRegs mem regs n spIndex = regs spIndex ∧
      ∀ i, 0 < i → i ≤ n → restoreRegs mem regs n (Fin.ofNat 32 i) =
        loadWord mem (slot (regs spIndex) i) := by
  induction n with
  | zero => exact ⟨rfl, fun i some_register none => by omega⟩
  | succ n ih =>
    obtain ⟨stack, loaded⟩ := ih (by omega)
    rw [restoreRegs, stack]
    refine ⟨?_, fun i some_register within => ?_⟩
    · by_cases isSp : n + 1 = 2
      · rw [isSp]
        exact (Function.update_self _ _ _).trans kept
      · exact (Function.update_of_ne (register_ne (by decide : 2 < 32) within
          (Ne.symm isSp)) _ _).trans stack
    · by_cases last : i = n + 1
      · rw [last]
        exact Function.update_self _ _ _
      · rw [Function.update_of_ne (register_ne (by omega) (by omega) last)]
        exact loaded i some_register (by omega)

end Frame

section Resume

variable {handler : (cause epc regs : Word64) → Memory → Handled} {h : Hart}

/-- In its frame `handle_trap` finds the registers of the interrupted program, with the frame's
own address for the stack pointer. -/
theorem savedMem_slot {i : Nat} (some_register : 0 < i) (within : i < 32) :
    loadWord h.savedMem (slot h.frame i) =
      Function.update h.regs spIndex h.frame (Fin.ofNat 32 i) := by
  have stack : Function.update h.regs spIndex h.frame spIndex = h.frame :=
    Function.update_self _ _ _
  have saved : loadWord h.savedMem (slot (Function.update h.regs spIndex h.frame spIndex) i) =
      Function.update h.regs spIndex h.frame (Fin.ofNat 32 i) :=
    saveRegs_slot (by decide) some_register (Nat.le_of_lt_succ within)
  rwa [stack] at saved

theorem savedMem_outside {a : Word64} (outside : 272 ≤ offset a h.frame) :
    h.savedMem a = h.mem a := by
  refine saveRegs_outside (by decide) ?_
  rwa [Function.update_self]

/-- The program goes on with what `handle_trap` leaves in the slots. -/
theorem trapEntry_regs (kept : loadWord (h.handled handler).mem (slot h.frame 2) = h.frame) :
    (h.trapEntry handler).regs spIndex = h.regs spIndex ∧
      ∀ i, 0 < i → i < 32 → i ≠ 2 → (h.trapEntry handler).regs (Fin.ofNat 32 i) =
        loadWord (h.handled handler).mem (slot h.frame i) := by
  let called := Function.update (h.handled handler).regs spIndex h.frame
  have stack : called spIndex = h.frame := Function.update_self _ _ _
  have own : loadWord (h.handled handler).mem (slot (called spIndex) 2) = called spIndex := by
    rw [stack]
    exact kept
  obtain ⟨sp, slots⟩ := restoreRegs_slot (show 31 < 32 by decide) own
  rw [stack] at sp slots
  have regs : (h.trapEntry handler).regs = Function.update
      (restoreRegs (h.handled handler).mem called 31) spIndex (h.frame + 272) :=
    congrArg (fun sp => Function.update (restoreRegs (h.handled handler).mem called 31) spIndex
      (sp + 272)) sp
  rw [regs]
  refine ⟨?_, fun i some_register within different => ?_⟩
  · rw [Function.update_self]
    exact BitVec.sub_add_cancel _ _
  · exact (Function.update_of_ne (register_ne within (by decide) different) _ _).trans
      (slots i some_register (Nat.le_of_lt_succ within))

/-- A trap whose handler leaves the frame as it found it changes no register and no memory but
what the handler changes and the 272 bytes below the stack pointer, and goes on in machine mode
where the handler says. -/
theorem trap_resumes (handler : (cause epc regs : Word64) → Memory → Handled) (h : Hart)
    (keeps : ∀ a, offset a h.frame < 272 → (h.handled handler).mem a = h.savedMem a) :
    (∀ i, 0 < i → i < 32 →
        (h.trapEntry handler).regs (Fin.ofNat 32 i) = h.regs (Fin.ofNat 32 i)) ∧
      (∀ a, 272 ≤ offset a h.frame → (h.handled handler).mem a = h.savedMem a →
        (h.trapEntry handler).mem a = h.mem a) ∧
      (h.trapEntry handler).pc = (h.handled handler).result &&& ~~~1 ∧
      (h.trapEntry handler).mode = 3 := by
  have same : ∀ i, i < 32 → loadWord (h.handled handler).mem (slot h.frame i) =
      loadWord h.savedMem (slot h.frame i) := by
    intro i within
    refine word_ext fun k inside => ?_
    rw [wordByte_loadWord _ _ inside, wordByte_loadWord _ _ inside]
    refine keeps _ ?_
    rw [slot, BitVec.add_assoc, ← BitVec.ofNat_add, offset_self_add _ (by omega)]
    omega
  have kept : loadWord (h.handled handler).mem (slot h.frame 2) = h.frame :=
    (same 2 (by decide)).trans ((savedMem_slot (by decide) (by decide)).trans
      (Function.update_self _ _ _))
  obtain ⟨stack, slots⟩ := trapEntry_regs kept
  refine ⟨fun i some_register within => ?_, fun a outside unchanged => ?_, rfl, ?_⟩
  · by_cases isSp : i = 2
    · rw [isSp]
      exact stack
    · rw [slots i some_register within isSp, same i within, savedMem_slot some_register within]
      exact Function.update_of_ne (register_ne within (by decide) isSp) _ _
  · exact unchanged.trans (savedMem_outside outside)
  · refine BitVec.eq_of_getLsbD_eq fun i inside => ?_
    change ((h.mstatus ||| MSTATUS_MPP).extractLsb' 11 2).getLsbD i = _
    rw [BitVec.getLsbD_extractLsb', BitVec.getLsbD_or]
    match i, inside with
    | 0, _ | 1, _ => exact Bool.or_true _

/-- A handler that leaves a mark at the lowest address and skips the instruction. -/
def skipping (_cause epc _regs : Word64) (mem : Memory) : Handled :=
  { result := epc + 4, mem := storeByte mem 0 1, regs := fun _ => 0 }

/-- A program with the stack pointer at 4096, and in any other register its number. -/
def trapped : Hart :=
  { pc := 0x800, regs := Function.update (fun i => BitVec.ofNat 64 i) spIndex 4096,
    mem := fun _ => 0, mepc := 0x2000, mcause := 2, mstatus := 0, mode := 3 }

theorem trap_resumes_skipping :
    (trapped.trapEntry skipping).regs (Fin.ofNat 32 31) = 31 ∧
      (trapped.trapEntry skipping).regs (Fin.ofNat 32 2) = 4096 ∧
      (trapped.trapEntry skipping).mem 4096 = 0 ∧ (trapped.trapEntry skipping).pc = 0x2004 := by
  have marked : ∀ a : Word64, a ≠ 0 → (trapped.handled skipping).mem a = trapped.savedMem a := by
    intro a other
    refine if_neg fun inside => other (BitVec.eq_of_toNat_eq ?_)
    exact (congrArg BitVec.toNat (BitVec.sub_zero a)).symm.trans (Nat.lt_one_iff.mp inside)
  have keeps : ∀ a, offset a trapped.frame < 272 →
      (trapped.handled skipping).mem a = trapped.savedMem a := by
    intro a inside
    refine marked a fun lowest => absurd inside ?_
    rw [lowest]
    decide
  obtain ⟨regs, mem, pc, -⟩ := trap_resumes skipping trapped keeps
  refine ⟨(regs 31 (by decide) (by decide)).trans (by decide),
    (regs 2 (by decide) (by decide)).trans (by decide), ?_, pc.trans (by decide)⟩
  exact (mem 4096 (by decide) (marked 4096 (by decide))).trans rfl

end Resume

end RiscvLab.Runtime
