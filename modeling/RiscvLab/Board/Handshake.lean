import RiscvLab.Board.Burst

/-!
# The handshake between MemControl and the converter

`TXN_DONE` is a level that stays 1 between two transactions and falls one and a half
cycles after `AXIStart`, just before `MemControl` first samples it. Whatever the core
asks for and whatever a compliant slave does, each transaction of `MemControl` is one
burst with one response, and it ends after that response.
-/
namespace RiscvLab.Board
open RiscvLab.Lib.ByteMemory RiscvLab.Lib.Run RiscvLab.Hdl
open MemState

/-- What the core asks of the memory port in one cycle, and what the slave drives. -/
structure PortInput where
  mStrobe : Bool
  memWrite : Bool
  address : Word
  dataIn : Word
  slave : SlaveInput
  deriving Inhabited

/-- `MemControl` and the converter. -/
structure Port where
  memControl : MemState
  converter : Converter

namespace Port

section Signals

variable (input : PortInput) (s : Port)

/-- `MemControl` after the falling edge of the cycle. -/
def negedge : MemState :=
  s.memControl.next input.mStrobe input.memWrite s.converter.compareDone

def clock : Port where
  memControl := s.negedge input
  converter := s.converter.clock input.slave input.address input.dataIn (s.negedge input).drw
    s.memControl.axiStart

end Signals

end Port

/-- The memory port of the board. -/
def System.port (s : System) : Port := ⟨s.top.memControl, s.converter⟩

/-- The core drives the port with the signals of its M stage. -/
def System.portInput (slave : SlaveInput) (s : System) : PortInput where
  mStrobe := s.top.memStrobeM
  memWrite := s.top.core.controlregM.memWriteM
  address := s.top.addressM
  dataIn := s.top.writeDataM (s.input slave)
  slave

/-- What happens at the port: `MemControl` leaves `Idle` with a value of `DRW`, an address
of a write or a read is first shown, the word of a write is first shown, a response of
a write or a read is taken, `MemControl` is back in `Idle`. -/
inductive PortEvent
  | leave (write : Bool)
  | address (write : Bool)
  | word
  | response (write : Bool)
  | back
  deriving DecidableEq, Repr

/-- The address, and the word if there is one, of a burst. -/
def burst : Bool → List PortEvent
  | true => [.address true, .word]
  | false => [.address false]

/-- A transaction up to its own response. -/
def answered (write : Bool) : List PortEvent :=
  .leave write :: (burst write ++ [.response write])

def transaction (write : Bool) : List PortEvent := answered write ++ [.back]

section Events

variable (slave : SlaveInput) (c c' : Converter)

/-- An event that happens or not. -/
def onlyIf (happens : Bool) (event : PortEvent) : List PortEvent := if happens then [event] else []

def busEvents : List PortEvent :=
  onlyIf (!c.axiAwvalid && c'.axiAwvalid) (.address true) ++
  onlyIf (!c.axiWvalid && c'.axiWvalid) .word ++
  onlyIf (!c.axiArvalid && c'.axiArvalid) (.address false) ++
  onlyIf (bTaken slave c) (.response true) ++
  onlyIf (rTaken slave c) (.response false)

/-- The events of one cycle. -/
def portEvents (input : PortInput) (s : Port) : List PortEvent :=
  onlyIf (s.memControl.done && !(s.negedge input).done) (.leave (s.negedge input).drw) ++
  busEvents input.slave s.converter (s.clock input).converter ++
  onlyIf (!s.memControl.done && (s.negedge input).done) .back

end Events

section Stages

/-- The stages of a transaction. -/
inductive Progress
  | idle
  | start
  | latched
  | launching
  | sent
  | responded
  | complete
  | data
  deriving DecidableEq, Repr

/-- The events that an open transaction has had. -/
def Progress.events (write : Bool) : Progress → List PortEvent
  | .idle => []
  | .start | .latched | .launching => [.leave write]
  | .sent => .leave write :: burst write
  | .responded | .complete | .data => answered write

/-- What the port is in at each stage. -/
def At (write : Bool) (s : Port) (t : Taken) : Progress → Prop
  | .idle => s.memControl = .idle ∧ s.converter.initTxnFf = false ∧ Resting s.converter ∧
      Outstanding 0 0 s.converter t
  | .start => s.memControl = startOf write ∧ s.converter.initTxnFf = false ∧
      Resting s.converter ∧ Outstanding 0 0 s.converter t
  | .latched => s.memControl = memOf write ∧ Latched write s.converter ∧
      Outstanding 0 0 s.converter t
  | .launching => s.memControl = memOf write ∧ Launching write s.converter ∧
      Outstanding 0 0 s.converter t
  | .sent => s.memControl = memOf write ∧ Sent write s.converter ∧
      Outstanding write.toNat (!write).toNat s.converter t
  | .responded => s.memControl = memOf write ∧ Responded write s.converter ∧
      Outstanding 0 0 s.converter t
  | .complete => s.memControl = memOf write ∧ Resting s.converter ∧
      Outstanding 0 0 s.converter t
  | .data => s.memControl = dataOf write ∧ Resting s.converter ∧ Outstanding 0 0 s.converter t

variable {slave : SlaveInput} {c c' : Converter}

/-- Nothing happens on the bus while no valid signal rises and no response is taken. -/
theorem busEvents_none (aw : c.axiAwvalid = false → c'.axiAwvalid = false)
    (w : c.axiWvalid = false → c'.axiWvalid = false)
    (ar : c.axiArvalid = false → c'.axiArvalid = false)
    (noWrite : bTaken slave c = false) (noRead : rTaken slave c = false) :
    busEvents slave c c' = [] := by
  have quiet : ∀ v v' : Bool, (v = false → v' = false) → (!v && v') = false := by decide
  rw [busEvents, quiet _ _ aw, quiet _ _ w, quiet _ _ ar, noWrite, noRead]
  rfl

theorem busEvents_launch {write : Bool} (now : Launching write c)
    (sent : c'.axiAwvalid = write ∧ c'.axiWvalid = write ∧ c'.axiArvalid = !write)
    (noWrite : bTaken slave c = false) (noRead : rTaken slave c = false) :
    busEvents slave c c' = burst write := by
  rw [busEvents, now.aw, now.w, now.ar, sent.1, sent.2.1, sent.2.2, noWrite, noRead]
  cases write <;> rfl

theorem busEvents_respond {write : Bool} {t : Taken}
    (owed : Outstanding write.toNat (!write).toNat c t) (due : Due slave t)
    (answer : responded slave c write = true) (next : NoValid c') :
    busEvents slave c c' = [.response write] := by
  rw [busEvents, next.aw, next.w, next.ar]
  cases write with
  | true =>
    have taken : bTaken slave c = true := answer
    rw [taken, Outstanding.noRead owed due]
    simp [onlyIf]
  | false =>
    have taken : rTaken slave c = true := answer
    rw [taken, Outstanding.noWrite owed due]
    simp [onlyIf]

end Stages

section Steps

variable {input : PortInput} {s : Port} {t : Taken} {write : Bool}

theorem noPulse_of {state : MemState} (now : s.memControl = state)
    (quiet : state.axiStart = false) :
    s.converter.initTxnPulse s.memControl.axiStart = false := by
  rw [Converter.initTxnPulse, now, quiet, Bool.and_false]

/-- While `MemControl` is busy the only events are those of the bus. -/
theorem portEvents_busy {next : MemState} (now : s.memControl.done = false)
    (after : s.negedge input = next) (busy : next.done = false) :
    portEvents input s = busEvents input.slave s.converter (s.clock input).converter := by
  rw [portEvents, now, after, busy]
  simp [onlyIf]

/-- While `TXN_DONE` is 0, `MemControl` waits. -/
theorem negedge_waiting (now : s.memControl = memOf write)
    (waiting : s.converter.compareDone = false) : s.negedge input = memOf write := by
  rw [Port.negedge, now, next_mem, waiting]
  rfl

theorem At.start (h : At write s t .start) (due : Due input.slave t) :
    portEvents input s = [] ∧
      At write (s.clock input) (t.count input.slave s.converter) .latched := by
  obtain ⟨state, trigger, quiet, owed⟩ := h
  have next : s.negedge input = memOf write := by rw [Port.negedge, state, next_start]
  have pulse : s.converter.initTxnPulse s.memControl.axiStart = true := by
    rw [Converter.initTxnPulse, trigger, state]
    cases write <;> rfl
  have latched : Latched write (s.clock input).converter := by
    have drw : (s.negedge input).drw = write := by rw [next, drw_memOf]
    rw [Port.clock, drw]
    exact quiet.pulse input.slave input.address input.dataIn pulse
  have busy : s.memControl.done = false := by
    rw [state]
    cases write <;> rfl
  refine ⟨?_, next, latched, owed.noValid due quiet.toNoValid latched.toNoValid⟩
  rw [portEvents_busy busy next (busy_memOf _)]
  exact busEvents_none (fun _ => latched.aw) (fun _ => latched.w) (fun _ => latched.ar)
    (owed.noWrite due) (owed.noRead due)

theorem At.latched (h : At write s t .latched) (due : Due input.slave t) :
    portEvents input s = [] ∧
      At write (s.clock input) (t.count input.slave s.converter) .launching := by
  obtain ⟨state, latched, owed⟩ := h
  have next : s.negedge input = memOf write := negedge_waiting state latched.done
  have launching : Launching write (s.clock input).converter :=
    latched.clock input.slave input.address input.dataIn _ (noPulse_of state (axiStart_memOf _))
      (owed.noWrite due) (owed.noRead due)
  have busy : s.memControl.done = false := by rw [state, busy_memOf]
  refine ⟨?_, next, launching, owed.noValid due latched.toNoValid launching.toNoValid⟩
  rw [portEvents_busy busy next (busy_memOf _)]
  exact busEvents_none (fun _ => launching.aw) (fun _ => launching.w) (fun _ => launching.ar)
    (owed.noWrite due) (owed.noRead due)

theorem At.launching (h : At write s t .launching) (due : Due input.slave t) :
    portEvents input s = burst write ∧
      At write (s.clock input) (t.count input.slave s.converter) .sent ∧
      (s.clock input).converter.axiAwvalid = write ∧
      (s.clock input).converter.axiWvalid = write ∧
      (s.clock input).converter.axiArvalid = !write := by
  obtain ⟨state, launching, owed⟩ := h
  have next : s.negedge input = memOf write := negedge_waiting state launching.done
  have noPulse := noPulse_of state (axiStart_memOf _)
  have sent : Sent write (s.clock input).converter :=
    launching.clock input.slave input.address input.dataIn _ noPulse (owed.noWrite due)
      (owed.noRead due)
  have shown := launching.valid input.slave input.address input.dataIn (s.negedge input).drw noPulse
  have busy : s.memControl.done = false := by rw [state, busy_memOf]
  refine ⟨?_, ⟨next, sent, owed.launch due launching shown⟩, shown⟩
  rw [portEvents_busy busy next (busy_memOf _)]
  exact busEvents_launch launching shown (owed.noWrite due) (owed.noRead due)

/-- The kind of response that was not asked for is not driven. -/
theorem otherResponse (owed : Outstanding write.toNat (!write).toNat s.converter t)
    (due : Due input.slave t) (waiting : responded input.slave s.converter write = false) :
    bTaken input.slave s.converter = false ∧ rTaken input.slave s.converter = false := by
  cases write with
  | true => exact ⟨waiting, Outstanding.noRead owed due⟩
  | false => exact ⟨Outstanding.noWrite owed due, waiting⟩

theorem At.sent_waiting (h : At write s t .sent) (due : Due input.slave t)
    (waiting : responded input.slave s.converter write = false) :
    portEvents input s = [] ∧
      At write (s.clock input) (t.count input.slave s.converter) .sent := by
  obtain ⟨state, sent, owed⟩ := h
  have next : s.negedge input = memOf write := negedge_waiting state sent.done
  have noPulse := noPulse_of state (axiStart_memOf _)
  have still : Sent write (s.clock input).converter :=
    sent.clock input.slave input.address input.dataIn _ noPulse waiting
  have held := sent.valid input.slave input.address input.dataIn (s.negedge input).drw noPulse
  obtain ⟨noWrite, noRead⟩ := otherResponse owed due waiting
  have busy : s.memControl.done = false := by rw [state, busy_memOf]
  refine ⟨?_, next, still, owed.wait noWrite noRead held⟩
  rw [portEvents_busy busy next (busy_memOf _)]
  refine busEvents_none (fun low => held.1.trans ?_) (fun low => held.2.1.trans ?_)
    (fun low => held.2.2.trans ?_) noWrite noRead <;> rw [low, Bool.false_and]

theorem At.sent_responded (h : At write s t .sent) (due : Due input.slave t)
    (answer : responded input.slave s.converter write = true) :
    portEvents input s = [.response write] ∧
      At write (s.clock input) (t.count input.slave s.converter) .responded := by
  obtain ⟨state, sent, owed⟩ := h
  have next : s.negedge input = memOf write := negedge_waiting state sent.done
  have done : Responded write (s.clock input).converter :=
    sent.respond input.slave input.address input.dataIn _ (noPulse_of state (axiStart_memOf _))
      answer (owed.noValid_of_response due answer)
  have busy : s.memControl.done = false := by rw [state, busy_memOf]
  refine ⟨?_, next, done, owed.respond due answer done.toNoValid⟩
  rw [portEvents_busy busy next (busy_memOf _)]
  exact busEvents_respond owed due answer done.toNoValid

theorem At.responded (h : At write s t .responded) (due : Due input.slave t) :
    portEvents input s = [] ∧
      At write (s.clock input) (t.count input.slave s.converter) .complete := by
  obtain ⟨state, responded, owed⟩ := h
  have next : s.negedge input = memOf write := negedge_waiting state responded.done
  have quiet : Resting (s.clock input).converter :=
    responded.clock input.slave input.address input.dataIn _ (noPulse_of state (axiStart_memOf _))
  have busy : s.memControl.done = false := by rw [state, busy_memOf]
  refine ⟨?_, next, quiet, owed.noValid due responded.toNoValid quiet.toNoValid⟩
  rw [portEvents_busy busy next (busy_memOf _)]
  exact busEvents_none (fun _ => quiet.aw) (fun _ => quiet.w) (fun _ => quiet.ar)
    (owed.noWrite due) (owed.noRead due)

/-- A quiet converter without a pulse stays quiet, and nothing happens on the bus. -/
theorem resting_step (quiet : Resting s.converter) (owed : Outstanding 0 0 s.converter t)
    (due : Due input.slave t)
    (noPulse : s.converter.initTxnPulse s.memControl.axiStart = false) :
    busEvents input.slave s.converter (s.clock input).converter = [] ∧
      Resting (s.clock input).converter ∧
      Outstanding 0 0 (s.clock input).converter (t.count input.slave s.converter) := by
  have still : Resting (s.clock input).converter :=
    quiet.clock input.slave input.address input.dataIn _ noPulse
  exact ⟨busEvents_none (fun _ => still.aw) (fun _ => still.w) (fun _ => still.ar)
    (owed.noWrite due) (owed.noRead due), still,
    owed.noValid due quiet.toNoValid still.toNoValid⟩

theorem At.complete (h : At write s t .complete) (due : Due input.slave t) :
    portEvents input s = [] ∧
      At write (s.clock input) (t.count input.slave s.converter) .data := by
  obtain ⟨state, quiet, owed⟩ := h
  have next : s.negedge input = dataOf write := by
    rw [Port.negedge, state, next_mem, quiet.done]
    rfl
  obtain ⟨none, still, account⟩ := resting_step quiet owed due (noPulse_of state (axiStart_memOf _))
  have busy : s.memControl.done = false := by rw [state, busy_memOf]
  refine ⟨?_, next, still, account⟩
  rw [portEvents_busy busy next (by cases write <;> rfl)]
  exact none

theorem At.data (h : At write s t .data) (due : Due input.slave t) (other : Bool) :
    portEvents input s = [.back] ∧
      At other (s.clock input) (t.count input.slave s.converter) .idle := by
  obtain ⟨state, quiet, owed⟩ := h
  have next : s.negedge input = .idle := by rw [Port.negedge, state, next_data]
  obtain ⟨none, still, account⟩ :=
    resting_step quiet owed due (noPulse_of state (axiStart_dataOf _))
  have busy : s.memControl.done = false := by
    rw [state]
    cases write <;> rfl
  have trigger : (s.clock input).converter.initTxnFf = false := by
    change s.memControl.axiStart = false
    rw [state, axiStart_dataOf]
  refine ⟨?_, next, trigger, still, account⟩
  rw [portEvents, none, busy, next]
  rfl

theorem At.idle_waiting (h : At write s t .idle) (due : Due input.slave t)
    (waiting : input.mStrobe = false) : portEvents input s = [] ∧
      At write (s.clock input) (t.count input.slave s.converter) .idle := by
  obtain ⟨state, trigger, quiet, owed⟩ := h
  have next : s.negedge input = .idle := by
    rw [Port.negedge, state, waiting]
    rfl
  obtain ⟨none, still, account⟩ := resting_step quiet owed due (noPulse_of state rfl)
  have off : (s.clock input).converter.initTxnFf = false := by
    change s.memControl.axiStart = false
    rw [state]
    rfl
  refine ⟨?_, next, off, still, account⟩
  rw [portEvents, none, state, next]
  rfl

theorem At.idle_leave (h : At write s t .idle) (due : Due input.slave t)
    (strobe : input.mStrobe = true) : portEvents input s = [.leave input.memWrite] ∧
      At input.memWrite (s.clock input) (t.count input.slave s.converter) .start := by
  obtain ⟨state, trigger, quiet, owed⟩ := h
  have next : s.negedge input = startOf input.memWrite := by
    rw [Port.negedge, state, strobe, next_idle]
  obtain ⟨none, still, account⟩ := resting_step quiet owed due (noPulse_of state rfl)
  have off : (s.clock input).converter.initTxnFf = false := by
    change s.memControl.axiStart = false
    rw [state]
    rfl
  refine ⟨?_, next, off, still, account⟩
  rw [portEvents, none, state, next, drw_startOf]
  cases input.memWrite <;> rfl

end Steps

section Run

variable (input : Nat → PortInput) (powerUp : Converter)

/-- The port in each clock cycle after both resets. -/
def portRun : Nat → Port := run Port.clock input ⟨.idle, powerUp.reset⟩

/-- The events of the first `n` cycles. -/
def portTrace : Nat → List PortEvent :=
  trace portEvents Port.clock input ⟨.idle, powerUp.reset⟩

def taken : Nat → Taken
  | 0 => ⟨0, 0, 0, 0, 0⟩
  | n + 1 => (taken n).count (input n).slave (portRun input powerUp n).converter

/-- The slave answers only bursts whose address and word it has taken. It may wait as it
likes, and nothing depends on `RLAST`. -/
def Compliant : Prop := ∀ n, Due (input n).slave (taken input powerUp n)

variable {input powerUp}

theorem reset_at (write : Bool) :
    At write (portRun input powerUp 0) (taken input powerUp 0) .idle :=
  ⟨rfl, rfl, ⟨⟨⟨rfl, rfl, rfl⟩, rfl, rfl⟩, rfl, rfl⟩,
    ⟨rfl, rfl, rfl, Nat.le_refl 0, Nat.le_refl 0, Nat.le_refl 0⟩⟩

/-- After any number of cycles the events are whole transactions and the beginning of
the open one. -/
theorem port_progress (compliant : Compliant input powerUp) (n : Nat) :
    ∃ (finished : List Bool) (write : Bool) (stage : Progress), portTrace input powerUp n =
        finished.flatMap transaction ++ Progress.events write stage ∧
      At write (portRun input powerUp n) (taken input powerUp n) stage := by
  induction n with
  | zero => exact ⟨[], false, .idle, rfl, reset_at false⟩
  | succ n ih =>
    obtain ⟨finished, write, stage, events, here⟩ := ih
    have due := compliant n
    have grown : portTrace input powerUp (n + 1) = portTrace input powerUp n ++
        portEvents (input n) (portRun input powerUp n) := rfl
    rw [grown, events, List.append_assoc]
    cases stage with
    | idle =>
      cases strobe : (input n).mStrobe with
      | false =>
        obtain ⟨emitted, next⟩ := here.idle_waiting due strobe
        exact ⟨finished, write, .idle, by rw [emitted]; rfl, next⟩
      | true =>
        obtain ⟨emitted, next⟩ := here.idle_leave due strobe
        exact ⟨finished, (input n).memWrite, .start, by rw [emitted]; rfl, next⟩
    | start =>
      obtain ⟨emitted, next⟩ := here.start due
      exact ⟨finished, write, .latched, by rw [emitted]; rfl, next⟩
    | latched =>
      obtain ⟨emitted, next⟩ := here.latched due
      exact ⟨finished, write, .launching, by rw [emitted]; rfl, next⟩
    | launching =>
      obtain ⟨emitted, next, -⟩ := here.launching due
      exact ⟨finished, write, .sent, by rw [emitted]; rfl, next⟩
    | sent =>
      cases answer : responded (input n).slave (portRun input powerUp n).converter write with
      | false =>
        obtain ⟨emitted, next⟩ := here.sent_waiting due answer
        exact ⟨finished, write, .sent, by rw [emitted, List.append_nil], next⟩
      | true =>
        obtain ⟨emitted, next⟩ := here.sent_responded due answer
        exact ⟨finished, write, .responded, by rw [emitted]; rfl, next⟩
    | responded =>
      obtain ⟨emitted, next⟩ := here.responded due
      exact ⟨finished, write, .complete, by rw [emitted, List.append_nil]; rfl, next⟩
    | complete =>
      obtain ⟨emitted, next⟩ := here.complete due
      exact ⟨finished, write, .data, by rw [emitted, List.append_nil]; rfl, next⟩
    | data =>
      -- the transaction joins the finished ones
      obtain ⟨emitted, next⟩ := here.data due write
      refine ⟨finished ++ [write], write, .idle, ?_, next⟩
      rw [emitted, List.flatMap_append]
      simp [Progress.events, transaction]

section Reading

variable {s : Port} {t : Taken} {write : Bool} {stage : Progress}

theorem At.of_idle (h : At write s t stage) (idle : s.memControl = .idle) : stage = .idle := by
  cases stage with
  | idle => rfl
  | start | latched | launching | sent | responded | complete | data =>
    have state := h.1.symm.trans idle
    cases write <;> cases state

theorem Progress.opened (busy : stage ≠ .idle) :
    stage.events write ≠ [] ∧ stage.events write <+: answered write := by
  cases stage with
  | idle => exact absurd rfl busy
  | start | latched | launching | sent | responded | complete | data => cases write <;> decide

/-- `TXN_DONE` is 1 in `ReadMem` or `WriteMem` only after the response. -/
theorem At.answered (h : At write s t stage) {kind : Bool} (state : s.memControl = memOf kind)
    (done : s.converter.compareDone = true) : stage.events write = answered kind := by
  cases stage with
  | idle =>
    have impossible := h.1.symm.trans state
    cases kind <;> cases impossible
  | start | data =>
    have impossible := h.1.symm.trans state
    cases write <;> cases kind <;> cases impossible
  | latched | launching | sent | responded =>
    have waiting := h.2.1.done
    rw [done] at waiting
    cases waiting
  | complete =>
    obtain rfl := memOf_inj (h.1.symm.trans state)
    rfl

end Reading

/-- Only a burst that has been sent shows something. -/
theorem At.sent_of_valid {s : Port} {t : Taken} {write : Bool} {stage : Progress}
    (h : At write s t stage) (shown : ¬ NoValid s.converter) :
    s.memControl = memOf write ∧ Sent write s.converter := by
  cases stage with
  | idle => exact absurd h.2.2.1.toNoValid shown
  | start => exact absurd h.2.2.1.toNoValid shown
  | latched => exact absurd h.2.1.toNoValid shown
  | launching => exact absurd h.2.1.toNoValid shown
  | sent => exact ⟨h.1, h.2.1⟩
  | responded => exact absurd h.2.1.toNoValid shown
  | complete => exact absurd h.2.1.toNoValid shown
  | data => exact absurd h.2.1.toNoValid shown

/-- What is shown stays until it is taken. -/
theorem port_held (compliant : Compliant input powerUp) (n : Nat)
    (shown : ¬ NoValid (portRun input powerUp n).converter) :
    (portRun input powerUp (n + 1)).converter.axiAwvalid =
        ((portRun input powerUp n).converter.axiAwvalid && !(input n).slave.awready) ∧
      (portRun input powerUp (n + 1)).converter.axiWvalid =
        ((portRun input powerUp n).converter.axiWvalid && !(input n).slave.wready) ∧
      (portRun input powerUp (n + 1)).converter.axiArvalid =
        ((portRun input powerUp n).converter.axiArvalid && !(input n).slave.arready) := by
  obtain ⟨finished, write, stage, -, here⟩ := port_progress compliant n
  obtain ⟨state, sent⟩ := here.sent_of_valid shown
  exact sent.valid (input n).slave (input n).address (input n).dataIn _
    (noPulse_of state (axiStart_memOf _))

/-- The burst is shown four cycles after `MemControl` has been idle. -/
theorem port_launch (compliant : Compliant input powerUp) (n : Nat)
    (idle : (portRun input powerUp n).memControl = .idle) (strobe : (input n).mStrobe = true) :
    (portRun input powerUp (n + 4)).converter.axiAwvalid = (input n).memWrite ∧
      (portRun input powerUp (n + 4)).converter.axiWvalid = (input n).memWrite ∧
      (portRun input powerUp (n + 4)).converter.axiArvalid = !(input n).memWrite := by
  obtain ⟨finished, write, stage, -, here⟩ := port_progress compliant n
  obtain rfl := here.of_idle idle
  have started := (here.idle_leave (compliant n) strobe).2
  have latched := (started.start (compliant (n + 1))).2
  have launching := (latched.latched (compliant (n + 2))).2
  exact (launching.launching (compliant (n + 3))).2.2

/-- For any requests and any compliant slave: the events at the port are whole
transactions and the beginning of at most one more. So each departure of `MemControl`
from `Idle` is followed by one burst of the kind that `DRW` says, by one response to it
and by the return, in this order. When `MemControl` is idle no response is owed, when it
sees `TXN_DONE` in `ReadMem` or `WriteMem` its own response has been taken, and each
burst is shown four cycles after the departure and kept up to its handshakes. -/
theorem port_transactions (compliant : Compliant input powerUp) (n : Nat) :
    (∃ (finished : List Bool) (opened : List PortEvent),
      portTrace input powerUp n = finished.flatMap transaction ++ opened ∧
      ((portRun input powerUp n).memControl = .idle →
        opened = [] ∧ (taken input powerUp n).Balanced) ∧
      ((portRun input powerUp n).memControl ≠ .idle →
        ∃ write, opened ≠ [] ∧ opened <+: answered write) ∧
      ∀ write, (portRun input powerUp n).memControl = memOf write →
        (portRun input powerUp n).converter.compareDone = true → opened = answered write) ∧
    ((portRun input powerUp n).memControl = .idle → (input n).mStrobe = true →
      (portRun input powerUp (n + 4)).converter.axiAwvalid = (input n).memWrite ∧
      (portRun input powerUp (n + 4)).converter.axiWvalid = (input n).memWrite ∧
      (portRun input powerUp (n + 4)).converter.axiArvalid = !(input n).memWrite) ∧
    (¬ NoValid (portRun input powerUp n).converter →
      (portRun input powerUp (n + 1)).converter.axiAwvalid =
        ((portRun input powerUp n).converter.axiAwvalid && !(input n).slave.awready) ∧
      (portRun input powerUp (n + 1)).converter.axiWvalid =
        ((portRun input powerUp n).converter.axiWvalid && !(input n).slave.wready) ∧
      (portRun input powerUp (n + 1)).converter.axiArvalid =
        ((portRun input powerUp n).converter.axiArvalid && !(input n).slave.arready)) := by
  refine ⟨?_, port_launch compliant n, port_held compliant n⟩
  obtain ⟨finished, write, stage, events, here⟩ := port_progress compliant n
  refine ⟨finished, stage.events write, events, fun idle => ?_, fun busy => ?_,
    fun kind state done => here.answered state done⟩
  · obtain rfl := here.of_idle idle
    exact ⟨rfl, here.2.2.2.balanced here.2.2.1.toNoValid⟩
  · refine ⟨write, Progress.opened ?_⟩
    rintro rfl
    exact busy here.1

/-- One read request, and a slave that takes its address in cycle 4 and answers in
cycle 5 for two cycles. -/
def readInput (n : Nat) : PortInput where
  mStrobe := decide (n = 0)
  memWrite := false
  address := 0
  dataIn := 0
  slave := { (default : SlaveInput) with
    arready := decide (n = 4), rvalid := decide (n = 5 ∨ n = 6), rlast := true }

theorem readInput_compliant : Compliant readInput default := by
  intro n
  refine ⟨fun write => absurd write (by simp [readInput]; decide), fun read => ?_⟩
  have cycles : n = 5 ∨ n = 6 := by simpa [readInput] using read
  rcases cycles with rfl | rfl <;> decide +kernel

/-- The request is one read transaction, whose address is shown in cycle 4. -/
theorem port_transactions_read : portTrace readInput default 10 = transaction false ∧
    (portRun readInput default 4).converter.axiArvalid = true ∧
    ∃ (finished : List Bool) (opened : List PortEvent),
      portTrace readInput default 8 = finished.flatMap transaction ++ opened ∧
      opened = answered false := by
  refine ⟨by decide +kernel, ?_, ?_⟩
  · exact ((port_transactions readInput_compliant 0).2.1 rfl rfl).2.2
  · obtain ⟨finished, opened, events, -, -, done⟩ := (port_transactions readInput_compliant 8).1
    exact ⟨finished, opened, events, done false (by decide +kernel) (by decide +kernel)⟩

end Run

section System

variable (imem : Ram) (slave : Nat → SlaveInput) (rf : RegArray) (powerUp : Converter)

/-- What the port is given in each cycle of a run of the board. -/
def systemPort (n : Nat) : PortInput := (systemRun imem slave rf powerUp n).portInput (slave n)

/-- The port of the board is the port run on what the core asks of it. -/
theorem systemRun_port (n : Nat) : (systemRun imem slave rf powerUp n).port =
    portRun (systemPort imem slave rf powerUp) powerUp n := by
  induction n with
  | zero => rfl
  | succ n ih =>
    change (systemRun imem slave rf powerUp n).port.clock (systemPort imem slave rf powerUp n) =
      Port.clock _ (portRun _ _ n)
    rw [ih]

end System

end RiscvLab.Board
