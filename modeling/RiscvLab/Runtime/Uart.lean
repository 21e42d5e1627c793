import RiscvLab.Lib.Run
import RiscvLab.Lib.Windows
import RiscvLab.Runtime.Format

/-!
# Output through the UART

`uartSend` of lab1/common/syscalls.c waits until the holding register of the UART is empty and
writes a character to it; `putchar`, and with it `printf`, and `uartPutStr` call it for one
character after the other. The UART goes on at its own pace.
-/
namespace RiscvLab.Runtime
open RiscvLab.Lib.Run RiscvLab.Lib.Windows

/-- The UART as the program relies on it. It is not part of the repository: bit 5 of its line
status register tells that the holding register is empty, a write fills the holding register,
and by and by its character goes out to the line. -/
structure Uart where
  Device : Type
  /-- The line status register. -/
  lsr : Device → BitVec 8
  /-- A write to the transmit holding register. -/
  writeThr : Device → BitVec 8 → Device
  /-- A step of the device. -/
  tick : Device → Device
  held : Device → Option (BitVec 8)
  /-- The characters that have gone out. -/
  line : Device → List (BitVec 8)
  /-- A bound on the steps until the held character goes out. -/
  wait : Device → Nat
  lsr_empty : ∀ d, lsr d &&& 1 <<< 5 ≠ 0 ↔ held d = none
  held_write : ∀ d c, held (writeThr d c) = some c
  line_write : ∀ d c, line (writeThr d c) = line d
  tick_idle : ∀ d, held d = none → held (tick d) = none ∧ line (tick d) = line d
  tick_busy : ∀ d c, held d = some c →
    (held (tick d) = some c ∧ line (tick d) = line d ∧ wait (tick d) < wait d) ∨
      (held (tick d) = none ∧ line (tick d) = line d ++ [c])

/-- Where `uartSend` is: at its test of the line status, or behind it. -/
inductive SendPoint
  | waiting | writing
  deriving DecidableEq, Repr

/-- The hart has `rest` still to send. -/
structure Sending (u : Uart) where
  device : u.Device
  point : SendPoint
  rest : List (BitVec 8)

/-- Whose turn it is. -/
inductive Turn
  | hart | device
  deriving DecidableEq, Repr

section Steps

variable {u : Uart}

def Sending.step (turn : Turn) (s : Sending u) : Sending u :=
  match turn with
  | .device => { s with device := u.tick s.device }
  | .hart =>
    match s.rest, s.point with
    | [], _ => s
    | _ :: _, .waiting =>
      if u.lsr s.device &&& 1 <<< 5 ≠ 0 then { s with point := .writing } else s
    | c :: rest, .writing => ⟨u.writeThr s.device c, .waiting, rest⟩

variable (schedule : Nat → Turn) (device : u.Device) (output : List (BitVec 8))

/-- From the call for the first character on. -/
def sendRun : Nat → Sending u := run Sending.step schedule ⟨device, .waiting, output⟩

/-- What has been sent, what the UART holds, and what is still to be sent. -/
def Sending.stream (s : Sending u) : List (BitVec 8) :=
  u.line s.device ++ ((u.held s.device).toList ++ s.rest)

/-- A character is written only to an empty holding register. -/
def Sending.Safe (s : Sending u) : Prop := s.point = .writing → u.held s.device = none

end Steps

section Safety

variable {u : Uart} {s : Sending u}

theorem Sending.stream_tick (device : u.Device) :
    u.line (u.tick device) ++ (u.held (u.tick device)).toList =
      u.line device ++ (u.held device).toList := by
  cases held : u.held device with
  | none =>
    obtain ⟨none, same⟩ := u.tick_idle device held
    rw [none, same]
  | some c =>
    rcases u.tick_busy device c held with ⟨still, same, -⟩ | ⟨none, gone⟩
    · rw [still, same]
    · rw [none, gone, Option.toList_none, Option.toList_some, List.append_nil]

/-- No step loses, doubles or reorders a character. -/
theorem Sending.step_stream (turn : Turn) (safe : s.Safe) :
    (s.step turn).stream = s.stream ∧ (s.step turn).Safe := by
  cases turn with
  | device =>
    constructor
    · unfold Sending.stream Sending.step
      rw [← List.append_assoc, ← List.append_assoc, stream_tick]
    · intro writing
      exact (u.tick_idle s.device (safe writing)).1
  | hart =>
    obtain ⟨device, point, rest⟩ := s
    cases rest with
    | nil => exact ⟨rfl, safe⟩
    | cons c rest =>
      cases point with
      | waiting =>
        unfold Sending.step
        dsimp only
        split
        next empty => exact ⟨rfl, fun _ => (u.lsr_empty device).mp empty⟩
        next => exact ⟨rfl, safe⟩
      | writing =>
        have none : u.held device = none := safe rfl
        constructor
        · change u.line (u.writeThr device c) ++ ((u.held (u.writeThr device c)).toList ++ rest) =
            u.line device ++ ((u.held device).toList ++ c :: rest)
          rw [u.line_write, u.held_write, none]
          rfl
        · intro writing
          cases writing

variable {schedule : Nat → Turn} {device : u.Device} {output : List (BitVec 8)}

theorem sendRun_stream (n : Nat) :
    (sendRun schedule device output n).stream =
      u.line device ++ ((u.held device).toList ++ output) ∧
      (sendRun schedule device output n).Safe := by
  refine run_invariant (fun _ (s : Sending u) =>
    s.stream = u.line device ++ ((u.held device).toList ++ output) ∧ s.Safe)
    ⟨rfl, fun writing => ?_⟩ (fun n kept => ?_) n
  · cases writing
  · obtain ⟨same, safe⟩ := Sending.step_stream (schedule n) kept.2
    exact ⟨same.trans kept.1, safe⟩

end Safety

section Progress

variable {u : Uart} {s : Sending u} {schedule : Nat → Turn} {device : u.Device}
  {output : List (BitVec 8)} {n : Nat} {c : BitVec 8} {rest : List (BitVec 8)}

/-- Neither the hart nor the UART stops for good. -/
def FairTurns (schedule : Nat → Turn) : Prop := ∀ turn n, ∃ m, n ≤ m ∧ schedule m = turn

/-- The hart is at its test with something still to send. -/
def Sending.Waits (rest : List (BitVec 8)) (s : Sending u) : Prop :=
  s.rest = rest ∧ s.point = .waiting

theorem Sending.step_full (waits : s.Waits rest) (full : u.held s.device = some c) :
    s.step .hart = s := by
  obtain ⟨device, point, rest'⟩ := s
  obtain ⟨-, rfl⟩ := waits
  have busy : ¬ u.lsr device &&& 1 <<< 5 ≠ 0 := by
    rw [u.lsr_empty, full]
    exact Option.some_ne_none c
  cases rest' with
  | nil => rfl
  | cons c' rest' => exact if_neg busy

theorem Sending.step_empty (waits : s.Waits (c :: rest)) (empty : u.held s.device = none) :
    s.step .hart = { s with point := .writing } := by
  obtain ⟨device, point, rest'⟩ := s
  obtain ⟨rfl, rfl⟩ := waits
  exact if_pos ((u.lsr_empty device).mpr empty)

theorem Sending.step_write (still : s.rest = c :: rest) (writing : s.point = .writing) :
    (s.step .hart).Waits rest := by
  obtain ⟨device, point, rest'⟩ := s
  obtain rfl := still
  obtain rfl := writing
  exact ⟨rfl, rfl⟩

theorem sendRun_succ (n : Nat) : sendRun schedule device output (n + 1) =
    (sendRun schedule device output n).step (schedule n) := rfl

/-- While the hart waits the held character goes out. -/
theorem drained (fair : FairTurns schedule) (now : (sendRun schedule device output n).Waits rest) :
    ∃ m, n ≤ m ∧ (sendRun schedule device output m).Waits rest ∧
      u.held (sendRun schedule device output m).device = none := by
  cases full : u.held (sendRun schedule device output n).device with
  | none => exact ⟨n, Nat.le_refl n, now, full⟩
  | some c =>
    refine reached_by_rank (fun m => (sendRun schedule device output m).Waits rest ∧
        u.held (sendRun schedule device output m).device = some c)
      (fun m => u.wait (sendRun schedule device output m).device) ⟨now, full⟩ ?_
    rintro m later ⟨waits, held⟩
    obtain ⟨j, after, same, turn⟩ := until_met
      (fun j => sendRun schedule device output j = sendRun schedule device output m)
      (fun j => schedule j = .device) (n := m) rfl
      (fun j _ same other => by
        have hart : schedule j = .hart := by
          cases turn : schedule j with
          | hart => rfl
          | device => exact absurd turn other
        rw [sendRun_succ, hart, same, Sending.step_full waits held])
      (fair .device m)
    have next : sendRun schedule device output (j + 1) =
        { sendRun schedule device output m with
          device := u.tick (sendRun schedule device output m).device } := by
      rw [sendRun_succ, turn, same]
      rfl
    refine ⟨j + 1, Nat.le_succ_of_le after, ?_⟩
    rw [next]
    rcases u.tick_busy _ c held with ⟨still, -, less⟩ | ⟨none, -⟩
    · exact .inr ⟨⟨waits, still⟩, less⟩
    · exact .inl ⟨waits, none⟩

/-- What the UART's steps keep is there at the hart's next turn. -/
theorem at_hart (fair : FairTurns schedule) (holds : Sending u → Prop)
    (ticks : ∀ s, holds s → holds { s with device := u.tick s.device })
    (now : holds (sendRun schedule device output n)) :
    ∃ m, n ≤ m ∧ holds (sendRun schedule device output m) ∧ schedule m = .hart := by
  refine until_met (fun m => holds (sendRun schedule device output m)) _ now
    (fun j _ here other => ?_) (fair .hart n)
  have turn : schedule j = .device := by
    cases turn : schedule j with
    | hart => exact absurd turn other
    | device => rfl
  rw [sendRun_succ, turn]
  exact ticks _ here

/-- Each character is written. -/
theorem written (fair : FairTurns schedule)
    (now : (sendRun schedule device output n).Waits (c :: rest)) :
    ∃ m, n ≤ m ∧ (sendRun schedule device output m).Waits rest := by
  obtain ⟨j, first, waits, empty⟩ := drained fair now
  obtain ⟨k, second, ⟨waits, empty⟩, turn⟩ := at_hart fair
    (fun s => s.Waits (c :: rest) ∧ u.held s.device = none)
    (fun s here => ⟨here.1, (u.tick_idle s.device here.2).1⟩) ⟨waits, empty⟩
  have tested : (sendRun schedule device output (k + 1)).rest = c :: rest ∧
      (sendRun schedule device output (k + 1)).point = .writing := by
    rw [sendRun_succ, turn, Sending.step_empty waits empty]
    exact ⟨waits.1, rfl⟩
  obtain ⟨m, third, ⟨still, writing⟩, turn⟩ := at_hart fair
    (fun s => s.rest = c :: rest ∧ s.point = .writing) (fun _ here => here) tested
  refine ⟨m + 1, by omega, ?_⟩
  rw [sendRun_succ, turn]
  exact Sending.step_write still writing

theorem all_written (fair : FairTurns schedule)
    (now : (sendRun schedule device output n).Waits rest) :
    ∃ m, n ≤ m ∧ (sendRun schedule device output m).Waits [] := by
  induction rest generalizing n with
  | nil => exact ⟨n, Nat.le_refl n, now⟩
  | cons c rest ih =>
    obtain ⟨j, first, waits⟩ := written fair now
    obtain ⟨m, second, done⟩ := ih waits
    exact ⟨m, Nat.le_trans first second, done⟩

/-- When nothing is left the line shows everything, and goes on to do so. -/
theorem sendRun_arrives (fair : FairTurns schedule) (device : u.Device)
    (output : List (BitVec 8)) : ∃ n, ∀ m, n ≤ m →
      u.line (sendRun schedule device output m).device =
        u.line device ++ ((u.held device).toList ++ output) := by
  obtain ⟨j, -, finished⟩ := all_written (n := 0) fair
    (show (sendRun schedule device output 0).Waits output from ⟨rfl, rfl⟩)
  obtain ⟨n, -, waits, empty⟩ := drained fair finished
  refine ⟨n, fun m later => ?_⟩
  have quiet : (sendRun schedule device output m).Waits [] ∧
      u.held (sendRun schedule device output m).device = none := by
    induction m, later using Nat.le_induction with
    | base => exact ⟨waits, empty⟩
    | succ m later ih =>
      obtain ⟨⟨done, point⟩, empty⟩ := ih
      rw [sendRun_succ]
      cases schedule m with
      | device => exact ⟨⟨done, point⟩, (u.tick_idle _ empty).1⟩
      | hart =>
        unfold Sending.step Sending.Waits
        rw [done]
        exact ⟨⟨done, point⟩, empty⟩
  have stream : (sendRun schedule device output m).stream = _ := (sendRun_stream m).1
  unfold Sending.stream at stream
  rw [quiet.2, quiet.1.1] at stream
  rw [← stream, Option.toList_none, List.append_nil, List.append_nil]

end Progress

section Printf

/-- `printf` hands each character to `putchar`, which sends its byte. -/
def printfBytes (slots : Nat → Word64) (strings : Word64 → List Char) (fmt : List Char) :
    List (BitVec 8) :=
  (vprintfmt slots strings fmt).map fun ch => BitVec.ofNat 8 ch.toNat

/-- Under every interleaving of the hart and the UART, what has gone out is what should, up to
some character, and the hart never writes to a holding register that is full. -/
theorem uart_order {u : Uart} (schedule : Nat → Turn) (device : u.Device)
    (output : List (BitVec 8)) (n : Nat) :
    (∃ pending, u.line (sendRun schedule device output n).device ++ pending =
      u.line device ++ ((u.held device).toList ++ output)) ∧
    ((sendRun schedule device output n).point = .writing →
      u.held (sendRun schedule device output n).device = none) := by
  obtain ⟨stream, safe⟩ : (sendRun schedule device output n).stream = _ ∧ _ := sendRun_stream n
  exact ⟨⟨_, stream⟩, safe⟩

/-- Everything that a format means comes out on the line, after what was there before. -/
theorem printf_arrives {u : Uart} {schedule : Nat → Turn} (fair : FairTurns schedule)
    {slots : Nat → Word64} {strings : Word64 → List Char}
    (short : ∀ address, (strings address).length < 2 ^ 30) (device : u.Device)
    (pieces : List Piece) :
    ∃ n, ∀ m, n ≤ m →
      u.line (sendRun schedule device
        (printfBytes slots strings (pieces.flatMap Piece.text)) m).device =
      u.line device ++ ((u.held device).toList ++
        (meaning slots strings pieces 0).map fun ch => BitVec.ofNat 8 ch.toNat) := by
  unfold printfBytes
  rw [vprintfmt_text pieces fun _ _ _ => short]
  exact sendRun_arrives fair device _

/-- A UART that sends the held character in its next step. -/
def promptUart : Uart where
  Device := Option (BitVec 8) × List (BitVec 8)
  lsr d := if d.1 = none then 0x20 else 0
  writeThr d c := (some c, d.2)
  tick d := (none, d.2 ++ d.1.toList)
  held d := d.1
  line d := d.2
  wait _ := 0
  lsr_empty d := by
    by_cases empty : d.1 = none
    · rw [if_pos empty]
      exact iff_of_true (by decide) empty
    · rw [if_neg empty]
      exact iff_of_false (by decide) empty
  held_write _ _ := rfl
  line_write _ _ := rfl
  tick_idle d idle := by
    rw [idle]
    exact ⟨rfl, List.append_nil _⟩
  tick_busy d c busy := by
    rw [busy]
    exact .inr ⟨rfl, rfl⟩

/-- The hart and the UART take turns. -/
theorem printf_arrives_turns : ∃ n, ∀ m, n ≤ m →
    promptUart.line (sendRun (fun n => if n % 2 = 0 then .hart else .device) (none, [])
      (printfBytes (fun _ => -5) (fun _ => []) "x = %d\n".toList) m).device =
      [120, 32, 61, 32, 45, 53, 10] := by
  have fair : FairTurns fun n => if n % 2 = 0 then .hart else .device := by
    intro turn n
    cases turn with
    | hart => exact ⟨2 * n, by omega, if_pos (Nat.mul_mod_right 2 n)⟩
    | device => exact ⟨2 * n + 1, by omega, if_neg (by omega)⟩
  have short : ∀ _ : Word64, ([] : List Char).length < 2 ^ 30 := fun _ => by decide
  obtain ⟨n, sent⟩ := printf_arrives (u := promptUart) fair short (none, [])
    [.plain 'x' (by decide), .plain ' ' (by decide), .plain '=' (by decide),
      .plain ' ' (by decide), .directive ⟨.none, none, none, 0, .decimal⟩,
      .plain '\n' (by decide)]
  exact ⟨n, fun m later => (sent m later).trans (by decide)⟩

end Printf

end RiscvLab.Runtime
