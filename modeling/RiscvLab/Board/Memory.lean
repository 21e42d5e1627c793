import RiscvLab.Board.Handshake
import RiscvLab.Lib.Windows

/-!
# A memory behind the port

A slave that takes one address and one word per burst, stores the word by the time of its
response and returns what is stored. Behind it `MemControl` and the converter are a memory:
each transaction has the effect of one access, with the address and the word that the core
shows in the cycle after the departure from `Idle`.
-/
namespace RiscvLab.Board
open RiscvLab.Lib.ByteMemory RiscvLab.Lib.Run RiscvLab.Lib.Windows RiscvLab.Hdl
open MemState

/-- `M_AXI_ARADDR`. -/
def Converter.mAxiAraddr (c : Converter) : Word := 0x00100000 + c.axiAraddr

section Slave

/-- The words that are stored, and what the channels have taken last. -/
structure SlaveMem where
  ram : Ram
  awaddr : Word
  wdata : Word
  araddr : Word

/-- All byte lanes of a word are written, `M_AXI_WSTRB` being all ones. -/
def SlaveMem.next (slave : SlaveInput) (c : Converter) (m : SlaveMem) : SlaveMem where
  ram := if bTaken slave c then Function.update m.ram (wordIndex m.awaddr) m.wdata else m.ram
  awaddr := if awTaken slave c then c.mAxiAwaddr else m.awaddr
  wdata := if wTaken slave c then c.axiWdata else m.wdata
  araddr := if arTaken slave c then c.mAxiAraddr else m.araddr

variable (input : Nat → PortInput) (powerUp : Converter) (ram : Ram)

/-- The memory in each clock cycle. -/
def slaveMem : Nat → SlaveMem
  | 0 => ⟨ram, 0, 0, 0⟩
  | n + 1 => (slaveMem n).next (input n).slave (portRun input powerUp n).converter

/-- The slave keeps the rules of the bus and returns the word at the address it has taken. -/
structure MemorySlave : Prop where
  compliant : Compliant input powerUp
  reads : ∀ n, rTaken (input n).slave (portRun input powerUp n).converter = true →
    (input n).slave.rdata = (slaveMem input powerUp ram n).ram
      (wordIndex (slaveMem input powerUp ram n).araddr)

end Slave

section Registers

variable {input : PortInput} {s : Port}

/-- The pulse takes the address and the word. -/
theorem Port.clock_pulse (pulse : s.converter.initTxnPulse s.memControl.axiStart = true) :
    (s.clock input).converter.axiAwaddr = input.address ∧
      (s.clock input).converter.axiWdata = input.dataIn ∧
      (s.clock input).converter.axiAraddr = input.address := by
  simp [Port.clock, Converter.clock, pulse]

/-- Without a pulse they are kept up to their handshakes. -/
theorem Port.clock_kept (input : PortInput)
    (noPulse : s.converter.initTxnPulse s.memControl.axiStart = false) :
    (awTaken input.slave s.converter = false →
      (s.clock input).converter.axiAwaddr = s.converter.axiAwaddr) ∧
    (wTaken input.slave s.converter = false →
      (s.clock input).converter.axiWdata = s.converter.axiWdata) ∧
    (arTaken input.slave s.converter = false →
      (s.clock input).converter.axiAraddr = s.converter.axiAraddr) := by
  refine ⟨fun none => ?_, fun none => ?_, fun none => ?_⟩
  · have low : (input.slave.awready && s.converter.axiAwvalid) = false :=
      (Bool.and_comm _ _).trans none
    simp [Port.clock, Converter.clock, noPulse, low]
  · have low : (input.slave.wready && s.converter.axiWvalid) = false :=
      (Bool.and_comm _ _).trans none
    simp [Port.clock, Converter.clock, noPulse, low]
  · have low : (input.slave.arready && s.converter.axiArvalid) = false :=
      (Bool.and_comm _ _).trans none
    simp [Port.clock, Converter.clock, noPulse, low]

/-- `data_out` takes the word of a response. -/
theorem Port.clock_dataOut (noPulse : s.converter.initTxnPulse s.memControl.axiStart = false) :
    (s.clock input).converter.dataOut =
      if rTaken input.slave s.converter then input.slave.rdata else s.converter.dataOut := by
  simp [Port.clock, Converter.clock, noPulse, rTaken]

end Registers

section Access

/-- A value on a channel: on the bus as long as it is shown, then with the slave. -/
def Shown (valid : Bool) (bus taken value : Word) : Prop :=
  if valid then bus = value else taken = value

theorem Shown.step {valid valid' ready : Bool} {bus bus' taken taken' value : Word}
    (h : Shown valid bus taken value) (next : valid' = (valid && !ready))
    (kept : (valid && ready) = false → bus' = bus)
    (latched : taken' = if valid && ready then bus else taken) :
    Shown valid' bus' taken' value := by
  subst next latched
  unfold Shown at *
  cases valid <;> cases ready <;> simp_all

/-- The byte address of an access on the AXI bus. -/
def axiAddress (a : Word) : Word := 0x00100000 + a

variable (write : Bool) (a d : Word) (old : Ram) (c : Converter) (m : SlaveMem)

/-- The parts of a burst are on their way to the slave. -/
structure OnTheWay : Prop where
  ram : m.ram = old
  aw : write = true → Shown c.axiAwvalid c.mAxiAwaddr m.awaddr (axiAddress a)
  w : write = true → Shown c.axiWvalid c.axiWdata m.wdata d
  ar : write = false → Shown c.axiArvalid c.mAxiAraddr m.araddr (axiAddress a)

/-- The access is done. -/
structure Accessed : Prop where
  stored : write = true → m.ram = Function.update old (wordIndex (axiAddress a)) d
  kept : write = false → m.ram = old
  read : write = false → c.dataOut = old (wordIndex (axiAddress a))

/-- What has become of an access at each stage of its transaction. -/
def Carries : Progress → Prop
  | .idle | .start => m.ram = old
  | .latched | .launching =>
    m.ram = old ∧ c.axiAwaddr = a ∧ c.axiWdata = d ∧ c.axiAraddr = a
  | .sent => OnTheWay write a d old c m
  | .responded | .complete | .data => Accessed write a d old c m

end Access

section Steps

variable {input : PortInput} {s : Port} {t : Taken} {write : Bool} {a d : Word} {old : Ram}
  {m : SlaveMem}

/-- Nothing is stored without a response to a write. -/
theorem ram_kept (none : bTaken input.slave s.converter = false) :
    (m.next input.slave s.converter).ram = m.ram := by
  simp [SlaveMem.next, none]

theorem At.carries_start (h : At write s t .start) (due : Due input.slave t)
    (carried : Carries write a d old s.converter m .start) :
    Carries write input.address input.dataIn old (s.clock input).converter
      (m.next input.slave s.converter) .latched := by
  obtain ⟨state, trigger, quiet, owed⟩ := h
  have pulse : s.converter.initTxnPulse s.memControl.axiStart = true := by
    rw [Converter.initTxnPulse, trigger, state]
    cases write <;> rfl
  exact ⟨(ram_kept (owed.noWrite due)).trans carried, Port.clock_pulse pulse⟩

/-- A channel that shows nothing has no handshake. -/
theorem NoValid.notTaken (h : NoValid s.converter) (input : PortInput) :
    awTaken input.slave s.converter = false ∧ wTaken input.slave s.converter = false ∧
      arTaken input.slave s.converter = false := by
  simp [awTaken, wTaken, arTaken, h.aw, h.w, h.ar]

theorem At.carries_latched (h : At write s t .latched) (due : Due input.slave t)
    (carried : Carries write a d old s.converter m .latched) :
    Carries write a d old (s.clock input).converter (m.next input.slave s.converter)
      .launching := by
  obtain ⟨state, latched, owed⟩ := h
  obtain ⟨ram, aw, w, ar⟩ := carried
  obtain ⟨noAw, noW, noAr⟩ := latched.toNoValid.notTaken input
  obtain ⟨keepAw, keepW, keepAr⟩ := Port.clock_kept input
    (noPulse_of state (axiStart_memOf _))
  exact ⟨(ram_kept (owed.noWrite due)).trans ram, (keepAw noAw).trans aw, (keepW noW).trans w,
    (keepAr noAr).trans ar⟩

/-- All parts of the burst are shown with what the pulse has taken. -/
theorem At.carries_launching (h : At write s t .launching) (due : Due input.slave t)
    (carried : Carries write a d old s.converter m .launching) :
    Carries write a d old (s.clock input).converter (m.next input.slave s.converter) .sent := by
  obtain ⟨-, -, awvalid, wvalid, arvalid⟩ := h.launching due
  obtain ⟨state, launching, owed⟩ := h
  obtain ⟨ram, aw, w, ar⟩ := carried
  obtain ⟨noAw, noW, noAr⟩ := launching.toNoValid.notTaken input
  obtain ⟨keepAw, keepW, keepAr⟩ := Port.clock_kept input
    (noPulse_of state (axiStart_memOf _))
  refine ⟨(ram_kept (owed.noWrite due)).trans ram, fun isWrite => ?_, fun isWrite => ?_,
    fun isRead => ?_⟩
  · rw [awvalid, isWrite, Shown, if_pos rfl, Converter.mAxiAwaddr, keepAw noAw, aw]
    rfl
  · rw [wvalid, isWrite, Shown, if_pos rfl, keepW noW, w]
  · rw [arvalid, isRead, Shown, if_pos (by rfl), Converter.mAxiAraddr, keepAr noAr, ar]
    rfl

/-- While the burst is not answered each part is shown or has been taken. -/
theorem At.carries_waiting (h : At write s t .sent) (due : Due input.slave t)
    (waiting : Board.responded input.slave s.converter write = false)
    (carried : Carries write a d old s.converter m .sent) :
    Carries write a d old (s.clock input).converter (m.next input.slave s.converter) .sent := by
  obtain ⟨state, sent, owed⟩ := h
  have noPulse := noPulse_of state (axiStart_memOf _)
  obtain ⟨keepAw, keepW, keepAr⟩ := Port.clock_kept input noPulse
  obtain ⟨awvalid, wvalid, arvalid⟩ :=
    sent.valid input.slave input.address input.dataIn (s.negedge input).drw noPulse
  obtain ⟨ram, aw, w, ar⟩ := carried
  refine ⟨(ram_kept (otherResponse owed due waiting).1).trans ram, fun isWrite => ?_,
    fun isWrite => ?_, fun isRead => ?_⟩
  · exact (aw isWrite).step awvalid (fun none => congrArg (0x00100000 + ·) (keepAw none)) rfl
  · exact (w isWrite).step wvalid keepW rfl
  · exact (ar isRead).step arvalid (fun none => congrArg (0x00100000 + ·) (keepAr none)) rfl

/-- The response to a write stores the word, and the response to a read brings it. -/
theorem At.carries_responded (h : At write s t .sent) (due : Due input.slave t)
    (reads : rTaken input.slave s.converter = true →
      input.slave.rdata = m.ram (wordIndex m.araddr))
    (answer : Board.responded input.slave s.converter write = true)
    (carried : Carries write a d old s.converter m .sent) :
    Carries write a d old (s.clock input).converter (m.next input.slave s.converter)
      .responded := by
  obtain ⟨state, sent, owed⟩ := h
  have quiet := owed.noValid_of_response due answer
  obtain ⟨ram, aw, w, ar⟩ := carried
  refine ⟨fun isWrite => ?_, fun isRead => ?_, fun isRead => ?_⟩
  · subst isWrite
    have address := aw rfl
    have word := w rfl
    have taken : bTaken input.slave s.converter = true := answer
    rw [quiet.aw] at address
    rw [quiet.w] at word
    have address' : m.awaddr = axiAddress a := address
    have word' : m.wdata = d := word
    simp [SlaveMem.next, taken, address', word', ram]
  · subst isRead
    exact (ram_kept (Outstanding.noWrite owed due)).trans ram
  · subst isRead
    have address := ar rfl
    rw [quiet.ar] at address
    have address' : m.araddr = axiAddress a := address
    have taken : rTaken input.slave s.converter = true := answer
    rw [Port.clock_dataOut (noPulse_of state (axiStart_memOf _)), if_pos taken, reads taken,
      address', ram]

/-- What has been read and stored stays while the transaction comes to its end. -/
theorem Accessed.step (h : Accessed write a d old s.converter m) (noWrite : bTaken input.slave
    s.converter = false) (noRead : rTaken input.slave s.converter = false)
    (noPulse : s.converter.initTxnPulse s.memControl.axiStart = false) :
    Accessed write a d old (s.clock input).converter (m.next input.slave s.converter) := by
  obtain ⟨stored, kept, read⟩ := h
  refine ⟨fun isWrite => ?_, fun isRead => ?_, fun isRead => ?_⟩
  · rw [ram_kept noWrite, stored isWrite]
  · rw [ram_kept noWrite, kept isRead]
  · rw [Port.clock_dataOut noPulse, noRead]
    exact read isRead

end Steps

section Transactions

variable (input : Nat → PortInput) (powerUp : Converter) (ram : Ram)

/-- The access that starts in a cycle: its direction, address and word. -/
def startedAccess (input : PortInput) (s : Port) : List (Bool × Word × Word) :=
  if s.memControl.axiStart then [(s.memControl.drw, input.address, input.dataIn)] else []

/-- The accesses started in the first `n` cycles. -/
def portAccesses : Nat → List (Bool × Word × Word) :=
  trace startedAccess Port.clock input ⟨.idle, powerUp.reset⟩

variable {input powerUp ram} {s n : Nat}

theorem startedAccess_quiet {input : PortInput} {s : Port} {state : MemState}
    (now : s.memControl = state) (quiet : state.axiStart = false) : startedAccess input s = [] := by
  rw [startedAccess, now, quiet]
  rfl

/-- Every cycle from the departure to the return belongs to a stage, with the access on its
way through it. -/
theorem carries_run (slave : MemorySlave input powerUp ram)
    (idle : (portRun input powerUp s).memControl = .idle) (strobe : (input s).mStrobe = true)
    (after : s < n)
    (busy : ∀ j, s < j → j ≤ n → (portRun input powerUp j).memControl ≠ .idle) :
    ∃ stage, At (input s).memWrite (portRun input powerUp n) (taken input powerUp n) stage ∧
      Carries (input s).memWrite (input (s + 1)).address (input (s + 1)).dataIn
        (slaveMem input powerUp ram s).ram (portRun input powerUp n).converter
        (slaveMem input powerUp ram n) stage ∧
      if stage = .start then n = s + 1 ∧ portAccesses input powerUp n = portAccesses input powerUp s
      else portAccesses input powerUp n = portAccesses input powerUp s ++
        [((input s).memWrite, (input (s + 1)).address, (input (s + 1)).dataIn)] := by
  obtain ⟨-, write, stage, -, here⟩ := port_progress slave.compliant s
  obtain rfl := here.of_idle idle
  have grown : ∀ j, portAccesses input powerUp (j + 1) = portAccesses input powerUp j ++
      startedAccess (input j) (portRun input powerUp j) := fun _ => rfl
  induction n, after using Nat.le_induction with
  | base =>
    refine ⟨.start, (here.idle_leave (slave.compliant s) strobe).2,
      ram_kept (here.2.2.2.noWrite (slave.compliant s)), rfl, ?_⟩
    rw [grown, startedAccess_quiet idle rfl, List.append_nil]
  | succ n after ih =>
    obtain ⟨stage, at', carried, accesses⟩ := ih (fun j later within => busy j later (by omega))
    have due := slave.compliant n
    have open' := busy (n + 1) (by omega) (Nat.le_refl _)
    rw [grown]
    cases stage with
    | idle => exact absurd at'.1 (busy n after (Nat.le_succ n))
    | start =>
      obtain ⟨rfl, same⟩ := accesses
      refine ⟨.latched, (at'.start due).2, at'.carries_start due carried, ?_⟩
      rw [same, startedAccess, at'.1, drw_startOf]
      cases (input s).memWrite <;> rfl
    | latched =>
      rw [startedAccess_quiet at'.1 (axiStart_memOf _), List.append_nil]
      exact ⟨.launching, (at'.latched due).2, at'.carries_latched due carried, accesses⟩
    | launching =>
      rw [startedAccess_quiet at'.1 (axiStart_memOf _), List.append_nil]
      exact ⟨.sent, (at'.launching due).2.1, at'.carries_launching due carried, accesses⟩
    | sent =>
      rw [startedAccess_quiet at'.1 (axiStart_memOf _), List.append_nil]
      cases answer : responded (input n).slave (portRun input powerUp n).converter
          (input s).memWrite with
      | false =>
        exact ⟨.sent, (at'.sent_waiting due answer).2, at'.carries_waiting due answer carried,
          accesses⟩
      | true =>
        exact ⟨.responded, (at'.sent_responded due answer).2,
          at'.carries_responded due (slave.reads n) answer carried, accesses⟩
    | responded =>
      rw [startedAccess_quiet at'.1 (axiStart_memOf _), List.append_nil]
      exact ⟨.complete, (at'.responded due).2,
        carried.step (at'.2.2.noWrite due) (at'.2.2.noRead due)
          (noPulse_of at'.1 (axiStart_memOf _)), accesses⟩
    | complete =>
      rw [startedAccess_quiet at'.1 (axiStart_memOf _), List.append_nil]
      exact ⟨.data, (at'.complete due).2,
        carried.step (at'.2.2.noWrite due) (at'.2.2.noRead due)
          (noPulse_of at'.1 (axiStart_memOf _)), accesses⟩
    | data => exact absurd (at'.data due true).2.1 open'

/-- Only `ReadData` and `WriteData` lead back to `Idle`. -/
theorem MemState.data_of_back {state : MemState} {mStrobe memWrite trigger : Bool}
    (busy : state ≠ .idle) (back : state.next mStrobe memWrite trigger = .idle) :
    ∃ kind, state = dataOf kind := by
  cases state with
  | idle => exact absurd rfl busy
  | readData => exact ⟨false, rfl⟩
  | writeData => exact ⟨true, rfl⟩
  | readStart | writeStart => cases back
  | readMem | writeMem => cases trigger <;> cases back

theorem At.of_data {s : Port} {t : Taken} {write kind : Bool} {stage : Progress}
    (h : At write s t stage) (state : s.memControl = dataOf kind) : stage = .data := by
  cases stage with
  | data => rfl
  | idle =>
    have impossible := h.1.symm.trans state
    cases kind <;> cases impossible
  | start | latched | launching | sent | responded | complete =>
    have impossible := h.1.symm.trans state
    cases write <;> cases kind <;> cases impossible

/-- In the last cycle of a transaction, and in the first one after it, the access is done. -/
theorem port_access (slave : MemorySlave input powerUp ram)
    (idle : (portRun input powerUp s).memControl = .idle) (strobe : (input s).mStrobe = true)
    (after : s < n) (busy : ∀ j, s < j → j ≤ n → (portRun input powerUp j).memControl ≠ .idle)
    (back : (portRun input powerUp (n + 1)).memControl = .idle) :
    Accessed (input s).memWrite (input (s + 1)).address (input (s + 1)).dataIn
        (slaveMem input powerUp ram s).ram (portRun input powerUp n).converter
        (slaveMem input powerUp ram n) ∧
      Accessed (input s).memWrite (input (s + 1)).address (input (s + 1)).dataIn
        (slaveMem input powerUp ram s).ram (portRun input powerUp (n + 1)).converter
        (slaveMem input powerUp ram (n + 1)) ∧
      portAccesses input powerUp (n + 1) = portAccesses input powerUp s ++
        [((input s).memWrite, (input (s + 1)).address, (input (s + 1)).dataIn)] := by
  obtain ⟨stage, at', carried, accesses⟩ := carries_run slave idle strobe after busy
  obtain ⟨kind, last⟩ := MemState.data_of_back (busy n after (Nat.le_refl n)) back
  obtain rfl := at'.of_data last
  have due := slave.compliant n
  refine ⟨carried, carried.step (at'.2.2.noWrite due) (at'.2.2.noRead due)
    (noPulse_of at'.1 (axiStart_dataOf _)), ?_⟩
  have grown : portAccesses input powerUp (n + 1) = portAccesses input powerUp n ++
      startedAccess (input n) (portRun input powerUp n) := rfl
  rw [grown, startedAccess_quiet at'.1 (axiStart_dataOf _), List.append_nil]
  exact accesses

/-- Without a strobe nothing changes. -/
theorem port_idle (slave : MemorySlave input powerUp ram)
    (idle : (portRun input powerUp s).memControl = .idle) (waiting : (input s).mStrobe = false) :
    (portRun input powerUp (s + 1)).memControl = .idle ∧
      (slaveMem input powerUp ram (s + 1)).ram = (slaveMem input powerUp ram s).ram ∧
      (portRun input powerUp (s + 1)).converter.dataOut =
        (portRun input powerUp s).converter.dataOut ∧
      portAccesses input powerUp (s + 1) = portAccesses input powerUp s := by
  obtain ⟨-, write, stage, -, here⟩ := port_progress slave.compliant s
  obtain rfl := here.of_idle idle
  have due := slave.compliant s
  have grown : portAccesses input powerUp (s + 1) = portAccesses input powerUp s ++
      startedAccess (input s) (portRun input powerUp s) := rfl
  refine ⟨(here.idle_waiting due waiting).2.1, ram_kept (here.2.2.2.noWrite due), ?_, ?_⟩
  · refine (Port.clock_dataOut (noPulse_of idle rfl)).trans ?_
    rw [here.2.2.2.noRead due]
    rfl
  · rw [grown, startedAccess_quiet idle rfl, List.append_nil]

end Transactions

section Memory

variable {input : Nat → PortInput} {powerUp : Converter} {ram : Ram}

/-- What an access makes of the words. -/
def storeAccess (ram : Ram) : Bool × Word × Word → Ram
  | (true, a, d) => Function.update ram (wordIndex (axiAddress a)) d
  | (false, _, _) => ram

/-- The memory is what the accesses so far have made of it, in their order, and if the last one
was a read, `data_out` is the word at its address. -/
structure UpToDate (input : Nat → PortInput) (powerUp : Converter) (ram : Ram) (n : Nat) :
    Prop where
  stored : (slaveMem input powerUp ram n).ram =
    (portAccesses input powerUp n).foldl storeAccess ram
  read : ∀ earlier a d, portAccesses input powerUp n = earlier ++ [(false, a, d)] →
    (portRun input powerUp n).converter.dataOut =
      (slaveMem input powerUp ram n).ram (wordIndex (axiAddress a))

theorem port_upToDate (slave : MemorySlave input powerUp ram) :
    ∀ n, (portRun input powerUp n).memControl = .idle → UpToDate input powerUp ram n := by
  refine marked_induction rfl ⟨rfl, fun earlier a d last => ?_⟩
    (fun s m idle back after busy ih => ?_)
  · exact absurd (congrArg List.length last) (by simp [portAccesses, trace])
  · obtain ⟨stored, read⟩ := ih
    cases strobe : (input s).mStrobe with
    | false =>
      obtain ⟨still, sameRam, sameData, sameAccesses⟩ := port_idle slave idle strobe
      have next : m = s + 1 := by
        by_contra later
        exact busy (s + 1) (by omega) (by omega) still
      subst next
      refine ⟨?_, ?_⟩
      · rw [sameRam, sameAccesses]
        exact stored
      · rw [sameRam, sameData, sameAccesses]
        exact read
    | true =>
      have leaves : m ≠ s + 1 := by
        rintro rfl
        obtain ⟨-, write, stage, -, here⟩ := port_progress slave.compliant s
        obtain rfl := here.of_idle idle
        exact (busy_states _).1 ((here.idle_leave (slave.compliant s) strobe).2.1.symm.trans back)
      obtain ⟨n, rfl⟩ : ∃ n, m = n + 1 := ⟨m - 1, by omega⟩
      obtain ⟨-, done, accesses⟩ := port_access slave idle strobe (n := n) (by omega)
        (fun j later within => busy j later (by omega)) back
      have made := congrArg (List.foldl storeAccess ram) accesses
      rw [List.foldl_append, ← stored] at made
      cases kind : (input s).memWrite with
      | true =>
        rw [kind] at accesses made
        refine ⟨(done.stored kind).trans made.symm, fun earlier a d last => ?_⟩
        obtain ⟨-, same⟩ := List.append_inj' (accesses.symm.trans last) rfl
        cases same
      | false =>
        rw [kind] at accesses made
        refine ⟨(done.kept kind).trans made.symm, fun earlier a d last => ?_⟩
        obtain ⟨-, same⟩ := List.append_inj' (accesses.symm.trans last) rfl
        cases same
        rw [done.read kind, done.kept kind]

/-- For any requests and any delays of the slave: whenever `MemControl` is idle, the memory
is what the accesses so far have made of it, in their order, and if the last one was a
read, `data_out` is the word at its address. An access is a strobe that `MemControl` took in
`Idle`, with the address and the word shown one cycle later; what is asked for while it is
busy is no access. -/
theorem port_memory (slave : MemorySlave input powerUp ram) :
    ∀ n, (portRun input powerUp n).memControl = .idle →
      (slaveMem input powerUp ram n).ram = (portAccesses input powerUp n).foldl storeAccess ram ∧
      ∀ earlier a d, portAccesses input powerUp n = earlier ++ [(false, a, d)] →
        (portRun input powerUp n).converter.dataOut =
          (slaveMem input powerUp ram n).ram (wordIndex (axiAddress a)) := by
  intro n idle
  obtain ⟨stored, read⟩ := port_upToDate slave n idle
  exact ⟨stored, read⟩

/-- On the board the accesses are those of the core's M stage, and the core reads `data_out`. -/
theorem system_memory {imem : Ram} {slave : Nat → SlaveInput} {rf : RegArray}
    (memory : MemorySlave (systemPort imem slave rf powerUp) powerUp ram) {n : Nat}
    (idle : (systemRun imem slave rf powerUp n).top.memControl = .idle) :
    UpToDate (systemPort imem slave rf powerUp) powerUp ram n ∧
      ∀ earlier a d,
        portAccesses (systemPort imem slave rf powerUp) powerUp n = earlier ++ [(false, a, d)] →
        (systemInput imem slave rf powerUp n).readDataM =
          (slaveMem (systemPort imem slave rf powerUp) powerUp ram n).ram
            (wordIndex (axiAddress a)) := by
  have port := systemRun_port imem slave rf powerUp n
  have upToDate := port_upToDate memory n ((congrArg Port.memControl port).symm.trans idle)
  refine ⟨upToDate, fun earlier a d last => ?_⟩
  exact (congrArg (Converter.dataOut ∘ Port.converter) port).trans (upToDate.read earlier a d last)

/-- A word is written and read again. -/
def writeReadInput (n : Nat) : PortInput where
  mStrobe := decide (n = 0 ∨ n = 10)
  memWrite := decide (n < 10)
  address := 8
  dataIn := 7
  slave := { (default : SlaveInput) with
    awready := decide (n = 4), wready := decide (n = 4), bvalid := decide (n = 5 ∨ n = 6),
    arready := decide (n = 14), rvalid := decide (n = 15 ∨ n = 16), rlast := true, rdata := 7 }

theorem writeReadInput_slave : MemorySlave writeReadInput default (fun _ => 0) := by
  refine ⟨fun n => ⟨fun write => ?_, fun read => ?_⟩, fun n taken => ?_⟩
  · have cycles : n = 5 ∨ n = 6 := by simpa [writeReadInput] using write
    rcases cycles with rfl | rfl <;> decide +kernel
  · have cycles : n = 15 ∨ n = 16 := by simpa [writeReadInput] using read
    rcases cycles with rfl | rfl <;> decide +kernel
  · have cycles : n = 15 ∨ n = 16 := by
      have valid := (Bool.and_eq_true_iff.mp taken).1
      simpa [writeReadInput] using valid
    rcases cycles with rfl | rfl
    · revert taken
      decide +kernel
    · decide +kernel

/-- The word that was written is on `data_out`. -/
theorem port_memory_read : (portRun writeReadInput default 20).converter.dataOut = 7 := by
  have accesses : portAccesses writeReadInput default 20 = [(true, 8, 7)] ++ [(false, 8, 7)] := by
    decide +kernel
  obtain ⟨stored, read⟩ := port_memory writeReadInput_slave 20 (by decide +kernel)
  rw [read _ _ _ accesses, stored, accesses]
  decide

end Memory

end RiscvLab.Board
