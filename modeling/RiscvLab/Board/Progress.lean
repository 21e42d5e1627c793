import RiscvLab.Board.Handshake
import RiscvLab.Lib.Windows

/-!
# Every request is served

A slave that takes what is shown some time, and answers what it has taken, leaves no request
of the core without its transaction: `MemControl` comes back to `Idle` after each departure,
and the events in between are those of one transaction.
-/
namespace RiscvLab.Board
open RiscvLab.Lib.ByteMemory RiscvLab.Lib.Run RiscvLab.Lib.Windows RiscvLab.Hdl
open MemState

section Slave

variable (input : Nat → PortInput) (powerUp : Converter)

/-- The slave takes every address and word some time and answers every burst some time. A
response is driven until it is taken. -/
structure Responsive : Prop where
  aw : ∀ n, (portRun input powerUp n).converter.axiAwvalid = true →
    ∃ m, n ≤ m ∧ (input m).slave.awready = true
  w : ∀ n, (portRun input powerUp n).converter.axiWvalid = true →
    ∃ m, n ≤ m ∧ (input m).slave.wready = true
  ar : ∀ n, (portRun input powerUp n).converter.axiArvalid = true →
    ∃ m, n ≤ m ∧ (input m).slave.arready = true
  b : ∀ n, (taken input powerUp n).b < (taken input powerUp n).aw →
    (taken input powerUp n).b < (taken input powerUp n).w →
    ∃ m, n ≤ m ∧ (input m).slave.bvalid = true
  r : ∀ n, (taken input powerUp n).r < (taken input powerUp n).ar →
    ∃ m, n ≤ m ∧ (input m).slave.rvalid = true
  bHeld : ∀ n, (input n).slave.bvalid = true →
    bTaken (input n).slave (portRun input powerUp n).converter = false →
    (input (n + 1)).slave.bvalid = true
  rHeld : ∀ n, (input n).slave.rvalid = true →
    rTaken (input n).slave (portRun input powerUp n).converter = false →
    (input (n + 1)).slave.rvalid = true

end Slave

section Ready

variable {input : PortInput} {s : Port}

/-- A response is accepted in the cycle after it is first seen. -/
theorem Port.clock_bready (noPulse : s.converter.initTxnPulse s.memControl.axiStart = false)
    (seen : input.slave.bvalid = true) (untaken : bTaken input.slave s.converter = false) :
    (s.clock input).converter.axiBready = true := by
  have low : s.converter.axiBready = false := by
    rw [bTaken, seen, Bool.true_and] at untaken
    exact untaken
  simp [Port.clock, Converter.clock, noPulse, seen, low]

theorem Port.clock_rready (noPulse : s.converter.initTxnPulse s.memControl.axiStart = false)
    (seen : input.slave.rvalid = true) (untaken : rTaken input.slave s.converter = false) :
    (s.clock input).converter.axiRready = true := by
  have low : s.converter.axiRready = false := by
    rw [rTaken, seen, Bool.true_and] at untaken
    exact untaken
  simp [Port.clock, Converter.clock, noPulse, seen, low]

end Ready

section Burst

variable {input : Nat → PortInput} {powerUp : Converter} {n : Nat} {write : Bool}

/-- The port is in a stage. -/
def InStage (input : Nat → PortInput) (powerUp : Converter) (write : Bool) (stage : Progress)
    (n : Nat) : Prop :=
  At write (portRun input powerUp n) (taken input powerUp n) stage

/-- The response to the open burst is taken. -/
def Answers (input : Nat → PortInput) (powerUp : Converter) (write : Bool) (n : Nat) : Prop :=
  responded (input n).slave (portRun input powerUp n).converter write = true

/-- When the slave has taken all of a burst and drives the response, it is taken in this
cycle or the next one. -/
theorem answers_of_valid (responsive : Responsive input powerUp)
    (sent : ∀ j, n ≤ j → InStage input powerUp write .sent j)
    (owed : ∃ m, n ≤ m ∧
      (if write then (input m).slave.bvalid else (input m).slave.rvalid) = true) :
    ∃ m, n ≤ m ∧ Answers input powerUp write m := by
  obtain ⟨m, later, valid⟩ := owed
  have noPulse := noPulse_of (sent m later).1 (axiStart_memOf _)
  cases write with
  | true =>
    cases answer : bTaken (input m).slave (portRun input powerUp m).converter with
    | true => exact ⟨m, later, answer⟩
    | false =>
      have ready := Port.clock_bready noPulse valid answer
      have held := responsive.bHeld m valid answer
      exact ⟨m + 1, Nat.le_succ_of_le later, Bool.and_eq_true_iff.mpr ⟨held, ready⟩⟩
  | false =>
    cases answer : rTaken (input m).slave (portRun input powerUp m).converter with
    | true => exact ⟨m, later, answer⟩
    | false =>
      have ready := Port.clock_rready noPulse valid answer
      have held := responsive.rHeld m valid answer
      exact ⟨m + 1, Nat.le_succ_of_le later, Bool.and_eq_true_iff.mpr ⟨held, ready⟩⟩

/-- A burst that stays unanswered has been taken in all its parts some time. -/
theorem parts_taken (responsive : Responsive input powerUp)
    (sent : ∀ j, n ≤ j → InStage input powerUp write .sent j) :
    ∃ m, n ≤ m ∧ NoValid (portRun input powerUp m).converter := by
  have valid : ∀ j, n ≤ j → _ := fun j later =>
    (sent j later).2.1.valid (input j).slave (input j).address (input j).dataIn
      ((portRun input powerUp j).negedge (input j)).drw
      (noPulse_of (sent j later).1 (axiStart_memOf _))
  obtain ⟨i, afterAw, aw⟩ := falls (fun j => (portRun input powerUp j).converter.axiAwvalid)
    (fun j => (input j).slave.awready) (fun j later => (valid j later).1) (responsive.aw n)
  obtain ⟨j, afterW, w⟩ := falls (fun j => (portRun input powerUp j).converter.axiWvalid)
    (fun j => (input j).slave.wready) (fun j later => (valid j later).2.1) (responsive.w n)
  obtain ⟨k, afterAr, ar⟩ := falls (fun j => (portRun input powerUp j).converter.axiArvalid)
    (fun j => (input j).slave.arready) (fun j later => (valid j later).2.2) (responsive.ar n)
  exact ⟨max i (max j k), by omega, aw _ (by omega), w _ (by omega), ar _ (by omega)⟩

/-- Every burst that is sent is answered. -/
theorem sent_answered (responsive : Responsive input powerUp)
    (sent : ∀ j, n ≤ j → InStage input powerUp write .sent j) :
    ∃ m, n ≤ m ∧ Answers input powerUp write m := by
  obtain ⟨m, later, shown⟩ := parts_taken responsive sent
  obtain ⟨address, word, read, -⟩ := (sent m later).2.2
  rw [shown.aw] at address
  rw [shown.w] at word
  rw [shown.ar] at read
  cases write with
  | true =>
    simp only [Bool.toNat_true, Bool.toNat_false] at address word
    obtain ⟨k, after, valid⟩ := responsive.b m (by omega) (by omega)
    exact answers_of_valid responsive sent ⟨k, by omega, valid⟩
  | false =>
    simp only [Bool.not_false, Bool.toNat_true, Bool.toNat_false] at read
    obtain ⟨k, after, valid⟩ := responsive.r m (by omega)
    exact answers_of_valid responsive sent ⟨k, by omega, valid⟩

end Burst

section Requests

variable {input : Nat → PortInput} {powerUp : Converter} {n : Nat} {write : Bool}

/-- The events of the cycles from `n` on. -/
def Emits (input : Nat → PortInput) (powerUp : Converter) (n m : Nat)
    (events : List PortEvent) : Prop :=
  portTrace input powerUp m = portTrace input powerUp n ++ events

theorem Emits.step {m : Nat} {events more : List PortEvent} (h : Emits input powerUp n m events)
    (emitted : portEvents (input m) (portRun input powerUp m) = more) :
    Emits input powerUp n (m + 1) (events ++ more) := by
  have grown : portTrace input powerUp (m + 1) = portTrace input powerUp m ++
      portEvents (input m) (portRun input powerUp m) := rfl
  rw [Emits, grown, h, emitted, List.append_assoc]

/-- The wait for the slave ends, and nothing happens at the port before it does. -/
theorem sent_wait (compliant : Compliant input powerUp) (responsive : Responsive input powerUp)
    (sent : InStage input powerUp write .sent n) :
    ∃ m, n ≤ m ∧ (InStage input powerUp write .sent m ∧ Emits input powerUp n m []) ∧
      Answers input powerUp write m := by
  have lasts : ∀ j, InStage input powerUp write .sent j ∧ Emits input powerUp n j [] →
      ¬ Answers input powerUp write j →
      InStage input powerUp write .sent (j + 1) ∧ Emits input powerUp n (j + 1) [] := by
    intro j here waiting
    obtain ⟨emitted, next⟩ :=
      At.sent_waiting here.1 (compliant j) (Bool.eq_false_iff.mpr waiting)
    exact ⟨next, here.2.step emitted⟩
  have start : InStage input powerUp write .sent n ∧ Emits input powerUp n n [] :=
    ⟨sent, (List.append_nil _).symm⟩
  refine until_met _ _ start (fun j _ => lasts j) ?_
  by_contra never
  have always : ∀ j, n ≤ j → InStage input powerUp write .sent j ∧ Emits input powerUp n j [] := by
    intro j later
    induction j, later using Nat.le_induction with
    | base => exact start
    | succ j later ih => exact lasts j ih (fun answer => never ⟨j, later, answer⟩)
  exact never (sent_answered responsive (fun j later => (always j later).1))

/-- From the request to the next idle state: one transaction, stage by stage. -/
theorem request_finished (compliant : Compliant input powerUp)
    (responsive : Responsive input powerUp)
    (idle : (portRun input powerUp n).memControl = .idle) (strobe : (input n).mStrobe = true) :
    ∃ m, n < m ∧ InStage input powerUp (input n).memWrite .idle m ∧
      Emits input powerUp n m (transaction (input n).memWrite) := by
  obtain ⟨finished, write, stage, -, here⟩ := port_progress compliant n
  obtain rfl := here.of_idle idle
  obtain ⟨left, started⟩ := here.idle_leave (compliant n) strobe
  obtain ⟨quiet, latched⟩ := started.start (compliant (n + 1))
  obtain ⟨quietLaunch, launching⟩ := latched.latched (compliant (n + 2))
  obtain ⟨launched, sent, -⟩ := launching.launching (compliant (n + 3))
  have inStage : InStage input powerUp (input n).memWrite .sent (n + 4) := sent
  obtain ⟨m, later, ⟨waiting, waited⟩, answer⟩ := sent_wait compliant responsive inStage
  obtain ⟨answered', responded⟩ := At.sent_responded waiting (compliant m) answer
  obtain ⟨quietDone, complete⟩ := responded.responded (compliant (m + 1))
  obtain ⟨quietData, data⟩ := complete.complete (compliant (m + 2))
  obtain ⟨back, rest⟩ := data.data (compliant (m + 3)) write
  refine ⟨m + 4, by omega, rest, ?_⟩
  have before : Emits input powerUp n (n + 4) ([] ++ [.leave (input n).memWrite] ++ [] ++ [] ++
      burst (input n).memWrite) := by
    have start : Emits input powerUp n n [] := (List.append_nil _).symm
    exact (((start.step left).step quiet).step quietLaunch).step launched
  have after := (((waited.step answered').step quietDone).step quietData).step back
  rw [Emits] at before after ⊢
  rw [after, before]
  simp [transaction, answered]

/-- Whatever the core asks for and however long a compliant and responsive slave takes: a
request that meets the idle `MemControl` is served by one whole transaction of its kind, after
which `MemControl` is idle again. -/
theorem request_served (compliant : Compliant input powerUp)
    (responsive : Responsive input powerUp)
    (idle : (portRun input powerUp n).memControl = .idle) (strobe : (input n).mStrobe = true) :
    ∃ m, n < m ∧ (portRun input powerUp m).memControl = .idle ∧
      portTrace input powerUp m = portTrace input powerUp n ++ transaction (input n).memWrite := by
  obtain ⟨m, later, rest, emitted⟩ := request_finished compliant responsive idle strobe
  exact ⟨m, later, rest.1, emitted⟩

/-- The same for the request that the M stage of the board makes of an idle `MemControl`. -/
theorem system_served {imem : Ram} {slave : Nat → SlaveInput} {rf : RegArray}
    (compliant : Compliant (systemPort imem slave rf powerUp) powerUp)
    (responsive : Responsive (systemPort imem slave rf powerUp) powerUp)
    (idle : (systemRun imem slave rf powerUp n).top.memControl = .idle)
    (strobe : (systemRun imem slave rf powerUp n).top.memStrobeM = true) :
    ∃ m, n < m ∧ (systemRun imem slave rf powerUp m).top.memControl = .idle ∧
      portTrace (systemPort imem slave rf powerUp) powerUp m =
        portTrace (systemPort imem slave rf powerUp) powerUp n ++
          transaction (systemRun imem slave rf powerUp n).top.core.controlregM.memWriteM := by
  have port : ∀ m, (systemRun imem slave rf powerUp m).top.memControl =
      (portRun (systemPort imem slave rf powerUp) powerUp m).memControl :=
    fun m => congrArg Port.memControl (systemRun_port imem slave rf powerUp m)
  obtain ⟨m, later, rest, emitted⟩ :=
    request_finished compliant responsive ((port n).symm.trans idle) strobe
  exact ⟨m, later, (port m).trans rest.1, emitted⟩

/-- After its one read `readInput` leaves the port idle. -/
theorem readInput_idle (n : Nat) (later : 10 ≤ n) : InStage readInput default false .idle n := by
  induction n, later using Nat.le_induction with
  | base =>
    obtain ⟨-, write, stage, -, here⟩ := port_progress readInput_compliant 10
    obtain rfl := here.of_idle (by decide +kernel)
    exact here
  | succ n later ih =>
    have still : (readInput n).mStrobe = false := decide_eq_false (by omega)
    exact (At.idle_waiting ih (readInput_compliant n) still).2

theorem readInput_responsive : Responsive readInput default := by
  have early : ∀ n < 10, (portRun readInput default n).converter.axiAwvalid = false ∧
      (portRun readInput default n).converter.axiWvalid = false ∧
      ((portRun readInput default n).converter.axiArvalid = true → n ≤ 4) ∧
      (taken readInput default n).aw ≤ (taken readInput default n).b ∧
      ((taken readInput default n).r < (taken readInput default n).ar → n ≤ 6) := by
    decide +kernel
  have low : ∀ n, 10 ≤ n → NoValid (portRun readInput default n).converter ∧
      (taken readInput default n).Balanced := fun n later =>
    have here := readInput_idle n later
    ⟨here.2.2.1.toNoValid, here.2.2.2.balanced here.2.2.1.toNoValid⟩
  refine ⟨fun n shown => ?_, fun n shown => ?_, fun n shown => ?_, fun n owed _ => ?_,
    fun n owed => ?_, fun _ driven => absurd driven Bool.false_ne_true,
    fun n driven untaken => ?_⟩
  · rcases Nat.lt_or_ge n 10 with before | after
    · exact absurd shown (by rw [(early n before).1]; decide)
    · exact absurd shown (by rw [(low n after).1.aw]; decide)
  · rcases Nat.lt_or_ge n 10 with before | after
    · exact absurd shown (by rw [(early n before).2.1]; decide)
    · exact absurd shown (by rw [(low n after).1.w]; decide)
  · rcases Nat.lt_or_ge n 10 with before | after
    · exact ⟨4, (early n before).2.2.1 shown, rfl⟩
    · exact absurd shown (by rw [(low n after).1.ar]; decide)
  · rcases Nat.lt_or_ge n 10 with before | after
    · exact absurd owed (Nat.not_lt.mpr (early n before).2.2.2.1)
    · exact absurd owed (by rw [(low n after).2.address]; exact Nat.lt_irrefl _)
  · rcases Nat.lt_or_ge n 10 with before | after
    · exact ⟨6, (early n before).2.2.2.2 owed, rfl⟩
    · exact absurd owed (by rw [(low n after).2.read]; exact Nat.lt_irrefl _)
  · have cycles : n = 5 ∨ n = 6 := by simpa [readInput] using driven
    rcases cycles with rfl | rfl
    · rfl
    · revert untaken
      decide +kernel

/-- The read of cycle 0 is served. -/
theorem request_served_read : ∃ m, 0 < m ∧ (portRun readInput default m).memControl = .idle ∧
    portTrace readInput default m = transaction false :=
  request_served readInput_compliant readInput_responsive (n := 0) rfl rfl

end Requests

end RiscvLab.Board
