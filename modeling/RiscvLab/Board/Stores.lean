import RiscvLab.Board.Converter
import RiscvLab.Board.Transactions
import RiscvLab.Pipelined.MemoryUnits

/-!
# Stores of the board

The converter takes address and data on the rising edge that ends the cycle after
the store's own M cycle, sends exactly these, and sends all four bytes. The bytes
that a store does not address are therefore those of `readDataM` or of the
instruction behind it.
-/
namespace RiscvLab.Board
open RiscvLab.Lib.ByteMemory RiscvLab.Lib.Run RiscvLab.Hdl RiscvLab.Rv32i RiscvLab.Pipelined

section Burst

variable {address word : Word} {c : Converter}

/-- The write burst of an address and a word, from the pulse that latches them on. -/
inductive Sending (address word : Word) (c : Converter) : Prop
  | latched (state : c.mstExecState = .initWrite) (start : c.startSingleBurstWrite = false)
      (active : c.burstWriteActive = false) (done : c.writesDone = false)
      (ready : c.axiBready = false) (noAddress : c.axiAwvalid = false)
      (noWord : c.axiWvalid = false) (addr : c.axiAwaddr = address) (data : c.axiWdata = word)
  | starting (state : c.mstExecState = .initWrite) (start : c.startSingleBurstWrite = true)
      (done : c.writesDone = false) (last : c.axiWlast = true) (noAddress : c.axiAwvalid = false)
      (noWord : c.axiWvalid = false) (addr : c.axiAwaddr = address) (data : c.axiWdata = word)
  | bursting (state : c.mstExecState ≠ .initRead) (start : c.startSingleBurstWrite = false)
      (active : c.burstWriteActive = true ∨ c.writesDone = true) (last : c.axiWlast = true)
      (addr : c.axiAwvalid = true → c.axiAwaddr = address)
      (data : c.axiWvalid = true → c.axiWdata = word)

/-- The pulse of a write latches address and word. -/
theorem sending_of_pulse (slave : SlaveInput) {initAxiTxn : Bool}
    (pulse : c.initTxnPulse initAxiTxn = true) (idle : c.mstExecState = .idle)
    (noStart : c.startSingleBurstWrite = false) :
    Sending address word (c.clock slave address word true initAxiTxn) := by
  apply Sending.latched <;> simp [Converter.clock, pulse, idle, noStart]

/-- Without a new pulse the burst goes on, whatever the slave does. -/
theorem Sending.clock (h : Sending address word c) (slave : SlaveInput) (newAddress newWord : Word)
    (writeNread : Bool) {initAxiTxn : Bool} (noPulse : c.initTxnPulse initAxiTxn = false) :
    Sending address word (c.clock slave newAddress newWord writeNread initAxiTxn) := by
  cases h with
  | latched state start active done ready noAddress noWord addr data =>
    apply Sending.starting <;>
      simp [Converter.clock, noPulse, state, start, active, done, ready, noAddress, noWord, addr,
        data]
  | starting state start done last noAddress noWord addr data =>
    apply Sending.bursting <;>
      simp [Converter.clock, noPulse, state, start, done, noAddress, noWord, addr, data]
  | bursting state start active last addr data =>
    refine Sending.bursting ?_ ?_ ?_ ?_ ?_ ?_
    · cases exec : c.mstExecState with
      | idle => simp [Converter.clock, noPulse, exec]
      | initWrite => cases done : c.writesDone <;> simp [Converter.clock, exec, done]
      | initRead => exact absurd exec state
    · cases exec : c.mstExecState with
      | idle => simp [Converter.clock, exec, start]
      | initWrite => rcases active with active | done <;> simp [Converter.clock, *]
      | initRead => exact absurd exec state
    · -- the response that ends the burst is recorded in the same cycle
      cases response : slave.bvalid && c.axiBready with
      | true => simp [Converter.clock, noPulse, response]
      | false => simpa [Converter.clock, noPulse, start, response] using active
    · simp [Converter.clock, noPulse]
    · cases valid : c.axiAwvalid with
      | false => simp [Converter.clock, noPulse, start, valid]
      | true => cases accepted : slave.awready <;>
          simp [Converter.clock, noPulse, valid, accepted, addr valid]
    · cases valid : c.axiWvalid with
      | false => simp [Converter.clock, noPulse, start, valid]
      | true => cases accepted : slave.wready <;>
          simp [Converter.clock, noPulse, valid, accepted, last, data valid]

theorem Sending.axiAwaddr (h : Sending address word c) (valid : c.axiAwvalid = true) :
    c.axiAwaddr = address := by
  cases h with
  | latched state start active done ready noAddress noWord addr => exact addr
  | starting state start done last noAddress noWord addr => exact addr
  | bursting state start active last addr => exact addr valid

theorem Sending.axiWdata (h : Sending address word c) (valid : c.axiWvalid = true) :
    c.axiWdata = word := by
  cases h with
  | latched state start active done ready noAddress noWord addr data => exact data
  | starting state start done last noAddress noWord addr data => exact data
  | bursting state start active last addr data => exact data valid

theorem clock_compareDone (h : c.compareDone = decide (c.mstExecState = .idle))
    (slave : SlaveInput) (newAddress newWord : Word) (writeNread initAxiTxn : Bool) :
    (c.clock slave newAddress newWord writeNread initAxiTxn).compareDone =
      decide ((c.clock slave newAddress newWord writeNread initAxiTxn).mstExecState = .idle) := by
  cases exec : c.mstExecState with
  | idle =>
    rw [exec] at h
    cases pulse : c.initTxnPulse initAxiTxn with
    | false => simp [Converter.clock, exec, pulse, h]
    | true => cases writeNread <;> simp [Converter.clock, exec, pulse]
  | initWrite =>
    rw [exec] at h
    cases done : c.writesDone <;> simp [Converter.clock, exec, done, h]
  | initRead =>
    rw [exec] at h
    cases done : c.readsDone <;> simp [Converter.clock, exec, done, h]

theorem clock_idle {initAxiTxn : Bool} (noPulse : c.initTxnPulse initAxiTxn = false)
    (idle : c.mstExecState = .idle) (slave : SlaveInput) (newAddress newWord : Word)
    (writeNread : Bool) :
    (c.clock slave newAddress newWord writeNread initAxiTxn).mstExecState = .idle := by
  simp [Converter.clock, idle, noPulse]

/-- A burst that has been answered is past its start. -/
theorem Sending.start_of_done (h : Sending address word c) (answered : c.writesDone = true) :
    c.startSingleBurstWrite = false := by
  cases h with
  | latched state start active done => exact start
  | starting state start done => rw [answered] at done; cases done
  | bursting state start => exact start

end Burst

section Link

/-- `MemControl` and the converter wait for each other: a transaction is announced
only to an idle converter, and the converter bursts only what was announced. -/
structure Linked (s : System) : Prop where
  done : s.converter.compareDone = decide (s.converter.mstExecState = .idle)
  idle : s.top.memControl ≠ .readMem → s.top.memControl ≠ .writeMem →
    s.converter.mstExecState = .idle
  trigger : s.converter.initTxnFf = true → s.top.memControl.axiStart = false
  start : s.converter.mstExecState ≠ .initWrite → s.converter.startSingleBurstWrite = false
  burst : s.converter.mstExecState = .initWrite → ∃ address word, Sending address word s.converter

variable {s : System}

theorem Linked.pulse (h : Linked s) :
    s.converter.initTxnPulse s.top.memControl.axiStart = s.top.memControl.axiStart := by
  rw [Converter.initTxnPulse]
  cases ff : s.converter.initTxnFf with
  | false => rfl
  | true => rw [h.trigger ff]; rfl

theorem Linked.idle_of_start (h : Linked s) (starts : s.top.memControl.axiStart = true) :
    s.converter.mstExecState = .idle := by
  apply h.idle <;> intro state <;> rw [state] at starts <;> cases starts

/-- After the falling edge `MemControl` waits for the converter, or the converter is idle. -/
theorem Linked.idle_negedge (h : Linked s) (slave : SlaveInput)
    (read : s.top.memControlNegedge (s.input slave) ≠ .readMem)
    (write : s.top.memControlNegedge (s.input slave) ≠ .writeMem) :
    s.top.memControl.axiStart = false ∧ s.converter.mstExecState = .idle := by
  have answered : s.converter.compareDone = true → s.converter.mstExecState = .idle := by
    intro done
    rw [h.done, decide_eq_true_iff] at done
    exact done
  rw [Top.memControlNegedge] at read write
  cases state : s.top.memControl with
  | idle | readData | writeData =>
    refine ⟨rfl, h.idle ?_ ?_⟩ <;> rw [state] <;> decide
  | readStart => rw [state] at read; exact absurd rfl read
  | writeStart => rw [state] at write; exact absurd rfl write
  | readMem =>
    cases done : s.converter.compareDone with
    | true => exact ⟨rfl, answered done⟩
    | false =>
      rw [state, System.input, done] at read
      exact absurd rfl read
  | writeMem =>
    cases done : s.converter.compareDone with
    | true => exact ⟨rfl, answered done⟩
    | false =>
      rw [state, System.input, done] at write
      exact absurd rfl write

/-- The pulse of a write latches what M presents. -/
theorem Linked.latch (h : Linked s) (imem : Ram) (slave : SlaveInput)
    (starts : s.top.memControl.axiStart = true)
    (write : (s.top.memControlNegedge (s.input slave)).drw = true) :
    Sending s.top.addressM (s.top.writeDataM (s.input slave)) (s.clock imem slave).converter := by
  have idle := h.idle_of_start starts
  change Sending _ _ (s.converter.clock slave _ _ _ _)
  rw [write]
  exact sending_of_pulse slave (h.pulse.trans starts) idle (h.start (by rw [idle]; decide))

/-- As long as `MemControl` announces nothing new the burst goes on. -/
theorem Linked.sending_clock (h : Linked s) {address word : Word}
    (sending : Sending address word s.converter) (imem : Ram) (slave : SlaveInput)
    (quiet : s.top.memControl.axiStart = false) :
    Sending address word (s.clock imem slave).converter :=
  sending.clock slave _ _ _ (h.pulse.trans quiet)

theorem Linked.clock (h : Linked s) (imem : Ram) (slave : SlaveInput) :
    Linked (s.clock imem slave) := by
  refine ⟨clock_compareDone h.done _ _ _ _ _, fun read write => ?_, fun starts => ?_,
    fun other => ?_, fun bursts => ?_⟩
  · obtain ⟨quiet, idle⟩ := h.idle_negedge slave read write
    exact clock_idle (h.pulse.trans quiet) idle _ _ _ _
  · change s.top.memControl.axiStart = true at starts
    change (s.top.memControlNegedge (s.input slave)).axiStart = false
    have busy : s.top.memControl ≠ .idle := by
      intro state
      rw [state] at starts
      cases starts
    rw [Top.memControlNegedge, MemState.axiStart_next, decide_eq_false busy, Bool.and_false]
  · change (s.converter.clock slave _ _ _ _).mstExecState ≠ .initWrite at other
    change (s.converter.clock slave _ _ _ _).startSingleBurstWrite = false
    cases exec : s.converter.mstExecState with
    | idle | initRead =>
      have quiet := h.start (by rw [exec]; decide)
      simpa [Converter.clock, exec] using quiet
    | initWrite =>
      obtain ⟨address, word, sending⟩ := h.burst exec
      cases answered : s.converter.writesDone with
      | false => simp [Converter.clock, exec, answered] at other
      | true => simpa [Converter.clock, exec, answered] using sending.start_of_done answered
  · change (s.converter.clock slave _ _ _ _).mstExecState = .initWrite at bursts
    cases exec : s.converter.mstExecState with
    | idle =>
      have pulse : s.converter.initTxnPulse s.top.memControl.axiStart = true ∧
          (s.top.memControlNegedge (s.input slave)).drw = true := by
        cases pulse : s.converter.initTxnPulse s.top.memControl.axiStart <;>
          cases write : (s.top.memControlNegedge (s.input slave)).drw <;>
          simp [Converter.clock, exec, pulse, write] at bursts ⊢
      exact ⟨_, _, h.latch imem slave (h.pulse.symm.trans pulse.1) pulse.2⟩
    | initWrite =>
      obtain ⟨address, word, sending⟩ := h.burst exec
      refine ⟨address, word, h.sending_clock sending imem slave ?_⟩
      by_contra starts
      rw [h.idle_of_start (by simpa using starts)] at exec
      cases exec
    | initRead =>
      cases answered : s.converter.readsDone <;> simp [Converter.clock, exec, answered] at bursts

end Link

section Run

variable {imem : Ram} {slave : Nat → SlaveInput} {rf : RegArray} {powerUp : Converter}

theorem systemRun_linked (n : Nat) : Linked (systemRun imem slave rf powerUp n) :=
  run_invariant (fun _ => Linked)
    ⟨rfl, fun _ _ => rfl, fun _ => rfl, fun _ => rfl, fun bursts => by cases bursts⟩
    (fun k h => h.clock imem (slave k)) n

/-- A transaction starts in cycle `n`. -/
def startsAt (imem : Ram) (slave : Nat → SlaveInput) (rf : RegArray) (powerUp : Converter)
    (n : Nat) : Bool :=
  (systemRun imem slave rf powerUp n).top.starts (systemInput imem slave rf powerUp n)

/-- The burst of a write that starts in cycle `n` has the address and the store word
that M presents one cycle later. -/
theorem sending_of_start {n : Nat} (starts : startsAt imem slave rf powerUp n = true)
    (write : (systemRun imem slave rf powerUp n).top.core.controlregM.memWriteM = true) {k : Nat}
    (later : n + 2 ≤ k) (alone : ∀ i, n < i → i < k → startsAt imem slave rf powerUp i = false) :
    Sending (systemRun imem slave rf powerUp (n + 1)).top.addressM
      ((systemRun imem slave rf powerUp (n + 1)).top.writeDataM
        (systemInput imem slave rf powerUp (n + 1)))
      (systemRun imem slave rf powerUp k).converter := by
  induction k, later using Nat.le_induction with
  | base =>
    have state : (systemRun imem slave rf powerUp (n + 1)).top.memControl = .writeStart := by
      have negedge := Top.memControlNegedge_starts starts
      rw [write] at negedge
      exact negedge
    refine (systemRun_linked (n + 1)).latch imem (slave (n + 1)) ?_ ?_
    · rw [state]
      rfl
    · rw [Top.memControlNegedge, state]
      rfl
  | succ k later ih =>
    refine (systemRun_linked k).sending_clock
      (ih (fun i after before => alone i after (Nat.lt_succ_of_lt before))) imem (slave k) ?_
    obtain ⟨m, rfl⟩ : ∃ m, k = m + 1 := ⟨k - 1, by omega⟩
    exact alone m (by omega) (by omega)

end Run

section Bytes

/-- The lanes that an access addresses. -/
def Addressed (size : Nat) (a : Word) (lane : BitVec 2) : Prop :=
  (laneOf a).toNat ≤ lane.toNat ∧ lane.toNat < (laneOf a).toNat + size

instance (size : Nat) (a : Word) (lane : BitVec 2) : Decidable (Addressed size a lane) := by
  unfold Addressed
  infer_instance

/-- Where a byte on `writeDataM` comes from: from the word read if a sub-word store in
M does not address its lane, else from the register that M would store. -/
def sourceByte (x : Undef) (readDataM : Word) (s : Core) (lane : BitVec 2) : Byte :=
  if s.controlregM.memWriteM then
    match storeOp s.regM.funct3M with
    | some op =>
      if Aligned op.size s.regM.aluResultM then
        if Addressed op.size s.regM.aluResultM lane then
          s.regM.writeDataM.extractLsb'
            (8 * (lane.toNat - (laneOf s.regM.aluResultM).toNat)) 8
        else byteOf (s.dataM x readDataM) lane
      else if op = .sh then byteOf x.storeLane lane
      else byteOf s.regM.writeDataM lane
    | none => byteOf s.regM.writeDataM lane
  else byteOf s.regM.writeDataM lane

theorem byteOf_storeOutM (x : Undef) (readDataM : Word) (s : Core) (lane : BitVec 2) :
    byteOf (s.storeOutM x readDataM) lane = sourceByte x readDataM s lane := by
  rw [Core.storeOutM, sourceByte]
  cases s.controlregM.memWriteM with
  | false => rfl
  | true =>
    rw [if_pos rfl]
    cases kind : storeOp s.regM.funct3M with
    | none => rw [store_other x _ _ _ kind]
    | some op =>
      by_cases aligned : Aligned op.size s.regM.aluResultM
      · simp only [if_pos aligned]
        rw [store_unit x _ _ kind aligned, mergeBytes, byteOf_ofBytes]
        rfl
      · simp only [if_neg aligned]
        rw [store_misaligned x _ _ kind aligned]
        split <;> rfl

end Bytes

section Frame

variable (imem : Ram) (slave : Nat → SlaveInput) (rf : RegArray) (powerUp : Converter)

/-- In cycle `j` the slave takes the address of the transaction that started in cycle `n`. -/
def AddressBeat (n j : Nat) : Prop :=
  n + 2 ≤ j ∧ (∀ i, n < i → i < j → startsAt imem slave rf powerUp i = false) ∧
    (systemRun imem slave rf powerUp j).converter.axiAwvalid = true ∧ (slave j).awready = true

/-- In cycle `k` the slave takes the word of the transaction that started in cycle `n`. -/
def DataBeat (n k : Nat) : Prop :=
  n + 2 ≤ k ∧ (∀ i, n < i → i < k → startsAt imem slave rf powerUp i = false) ∧
    (systemRun imem slave rf powerUp k).converter.axiWvalid = true ∧ (slave k).wready = true

/-- The word sent for a store keeps the bytes that the store does not address as they
are in memory if and only if their sources in the cycle after its M cycle have the
bytes of the memory word at the address that is then on `addressM`. The kind `op` of the
store only says how many bytes it addresses. -/
theorem store_frame_iff (mem : Nat → Ram) (n : Nat)
    (starts : startsAt imem slave rf powerUp n = true)
    (write : (systemRun imem slave rf powerUp n).top.core.controlregM.memWriteM = true)
    (op : StoreOp) :
    (∀ j k lane, AddressBeat imem slave rf powerUp n j → DataBeat imem slave rf powerUp n k →
      ¬ Addressed op.size (systemRun imem slave rf powerUp n).top.addressM lane →
      byteOf (systemRun imem slave rf powerUp k).converter.axiWdata lane =
        byteOf (mem k (wordIndex (systemRun imem slave rf powerUp j).converter.mAxiAwaddr)) lane) ↔
    (∀ j k lane, AddressBeat imem slave rf powerUp n j → DataBeat imem slave rf powerUp n k →
      ¬ Addressed op.size (systemRun imem slave rf powerUp n).top.addressM lane →
      sourceByte (slave (n + 1)).undef (systemRun imem slave rf powerUp (n + 1)).converter.dataOut
          (systemRun imem slave rf powerUp (n + 1)).top.core lane =
        byteOf (mem k (wordIndex
          (0x00100000 + (systemRun imem slave rf powerUp (n + 1)).top.addressM))) lane) := by
  refine forall_congr' (fun j => forall_congr' (fun k => forall_congr' (fun lane => ?_)))
  refine imp_congr_right (fun addressBeat => imp_congr_right (fun dataBeat => ?_))
  have word := (sending_of_start starts write dataBeat.1 dataBeat.2.1).axiWdata dataBeat.2.2.1
  have address := (sending_of_start starts write addressBeat.1 addressBeat.2.1).axiAwaddr
    addressBeat.2.2.1
  rw [word, Converter.mAxiAwaddr, address, Top.writeDataM, byteOf_storeOutM]
  rfl

end Frame

section StoreProgram

/-- Two stores of one byte to the same address. -/
def byteStoreProgram : Ram := fun index =>
  match index.toNat with
  | 0 => 0x01100093 -- addi x1, x0, 0x11
  | 1 => 0x00100023 -- sb x1, 0(x0)
  | 2 => 0x00100023 -- sb x1, 0(x0)
  | _ => 0x00000063 -- beq x0, x0, 0

/-- A slave that takes and answers everything at once. -/
def readySlave : SlaveInput :=
  { (default : SlaveInput) with awready := true, wready := true, bvalid := true }

/-- Over a memory of zeros the first store keeps the other bytes. -/
theorem store_frame_iff_zero :
    startsAt byteStoreProgram (fun _ => readySlave) (fun _ => 0) default 4 = true ∧
    ∀ j k lane,
      AddressBeat byteStoreProgram (fun _ => readySlave) (fun _ => 0) default 4 j →
      DataBeat byteStoreProgram (fun _ => readySlave) (fun _ => 0) default 4 k →
      ¬ Addressed 1 (systemRun byteStoreProgram (fun _ => readySlave) (fun _ => 0) default
        4).top.addressM lane →
      byteOf (systemRun byteStoreProgram (fun _ => readySlave) (fun _ => 0) default
        k).converter.axiWdata lane = byteOf 0 lane := by
  refine ⟨by decide +kernel, ?_⟩
  exact (store_frame_iff byteStoreProgram (fun _ => readySlave) (fun _ => 0) default
    (fun _ _ => 0) 4 (by decide +kernel) (by decide +kernel) .sb).mpr
      (fun _ _ lane _ _ => by revert lane; decide +kernel)

/-- On a memory full of `0xAABBCCDD` the first store sends `0x00000011`: the other three
bytes come from `data_out`, which nothing has read from that address. -/
theorem store_frame_stale :
    startsAt byteStoreProgram (fun _ => readySlave) (fun _ => 0) default 4 = true ∧
    storeOp (systemRun byteStoreProgram (fun _ => readySlave) (fun _ => 0) default
      4).top.core.regM.funct3M = some .sb ∧
    ¬ ∀ j k lane,
      AddressBeat byteStoreProgram (fun _ => readySlave) (fun _ => 0) default 4 j →
      DataBeat byteStoreProgram (fun _ => readySlave) (fun _ => 0) default 4 k →
      ¬ Addressed 1 (systemRun byteStoreProgram (fun _ => readySlave) (fun _ => 0) default
        4).top.addressM lane →
      byteOf (systemRun byteStoreProgram (fun _ => readySlave) (fun _ => 0) default
        k).converter.axiWdata lane = byteOf 0xAABBCCDD lane := by
  refine ⟨by decide +kernel, by decide +kernel, fun kept => ?_⟩
  have alone : ∀ i, 4 < i → i < 8 →
      startsAt byteStoreProgram (fun _ => readySlave) (fun _ => 0) default i = false := by
    intro i after before
    have cases : i = 5 ∨ i = 6 ∨ i = 7 := by omega
    rcases cases with rfl | rfl | rfl <;> decide +kernel
  have wrong := kept 8 8 1 ⟨by decide, alone, by decide +kernel, rfl⟩
    ⟨by decide, alone, by decide +kernel, rfl⟩ (by decide +kernel)
  revert wrong
  decide +kernel

end StoreProgram

end RiscvLab.Board
