import Mathlib.Data.List.Infix

/-!
# Runs of clocked machines

A machine with one input per clock cycle, the state before each cycle, and the
events its cycles emit. The rules below carry an invariant, a lockstep relation
or a trace with pending events through a run of any length.
-/
namespace RiscvLab.Lib.Run

variable {Input State Input' State' Event : Type*}

/-- The state before cycle `n`. -/
def run (step : Input → State → State) (input : Nat → Input) (init : State) : Nat → State
  | 0 => init
  | n + 1 => step (input n) (run step input init n)

/-- The events of the first `n` cycles, oldest first. -/
def trace (out : Input → State → List Event) (step : Input → State → State)
    (input : Nat → Input) (init : State) : Nat → List Event
  | 0 => []
  | n + 1 => trace out step input init n ++ out (input n) (run step input init n)

section Rules

variable {step : Input → State → State} {input : Nat → Input} {init : State}

theorem run_succ (n : Nat) :
    run step input init (n + 1) = step (input n) (run step input init n) := rfl

/-- A run goes on from where it has come to. -/
theorem run_add (j k : Nat) : run step input init (j + k) =
    run step (fun n => input (j + n)) (run step input init j) k := by
  induction k with
  | zero => rfl
  | succ k ih => rw [← Nat.add_assoc, run_succ, run_succ, ih]

theorem trace_add {out : Input → State → List Event} (j k : Nat) :
    trace out step input init (j + k) = trace out step input init j ++
      trace out step (fun n => input (j + n)) (run step input init j) k := by
  induction k with
  | zero => exact (List.append_nil _).symm
  | succ k ih => rw [← Nat.add_assoc, trace, trace, ih, run_add, List.append_assoc]

/-- A property of the initial state that every cycle preserves holds throughout
the run. It may mention the cycle number. -/
theorem run_invariant (holds : Nat → State → Prop) (start : holds 0 init)
    (preserved : ∀ n, holds n (run step input init n) →
      holds (n + 1) (step (input n) (run step input init n))) :
    ∀ n, holds n (run step input init n)
  | 0 => start
  | n + 1 => preserved n (run_invariant holds start preserved n)

/-- A property that the first `n` cycles preserve holds up to the end of them. -/
theorem run_invariant_to (holds : Nat → State → Prop) (start : holds 0 init) {n : Nat}
    (preserved : ∀ k < n, holds k (run step input init k) →
      holds (k + 1) (step (input k) (run step input init k))) :
    ∀ k ≤ n, holds k (run step input init k)
  | 0, _ => start
  | k + 1, reached =>
    preserved k reached (run_invariant_to holds start preserved k (Nat.le_of_succ_le reached))

/-- A state that no input changes is never left. -/
theorem run_fixed {k : Nat} (fixed : ∀ i, step i (run step input init k) = run step input init k) :
    ∀ j, run step input init (k + j) = run step input init k
  | 0 => rfl
  | j + 1 => by rw [← Nat.add_assoc, run_succ, run_fixed fixed j, fixed]

/-- A run on a constant input that comes back to an earlier state is in no state that
was not among its first ones. -/
theorem run_periodic {i : Input} {k p : Nat} {holds : State → Prop}
    (back : run step (fun _ => i) init (k + (p + 1)) = run step (fun _ => i) init k)
    (first : ∀ n < k + (p + 1), holds (run step (fun _ => i) init n)) :
    ∀ n, holds (run step (fun _ => i) init n) := by
  have repeats : ∀ j, run step (fun _ => i) init (k + j + (p + 1)) =
      run step (fun _ => i) init (k + j) := by
    intro j
    have onward : run step (fun _ => i) init (k + j) =
        run step (fun _ => i) (run step (fun _ => i) init k) j :=
      @run_add Input State step (fun _ => i) init k j
    rw [Nat.add_right_comm, run_add, back, onward]
  intro n
  induction n using Nat.strong_induction_on with
  | _ n ih =>
    by_cases early : n < k + (p + 1)
    · exact first n early
    · obtain ⟨j, rfl⟩ : ∃ j, n = k + j + (p + 1) := ⟨n - (k + (p + 1)), by omega⟩
      rw [repeats]
      exact ih (k + j) (by omega)

/-- A state that emits nothing and that no input changes ends the trace. -/
theorem trace_fixed {out : Input → State → List Event} {k : Nat}
    (fixed : ∀ i, step i (run step input init k) = run step input init k)
    (silent : ∀ i, out i (run step input init k) = []) :
    ∀ j, trace out step input init (k + j) = trace out step input init k
  | 0 => rfl
  | j + 1 => by
    rw [← Nat.add_assoc, trace, run_fixed fixed j, silent, List.append_nil,
      trace_fixed fixed silent j]

/-- Two machines that keep a relation cycle by cycle stay related. -/
theorem run_lockstep {step' : Input' → State' → State'} {input' : Nat → Input'} {init' : State'}
    (related : State → State' → Prop) (start : related init init')
    (preserved : ∀ n, related (run step input init n) (run step' input' init' n) →
      related (run step input init (n + 1)) (run step' input' init' (n + 1))) :
    ∀ n, related (run step input init n) (run step' input' init' n)
  | 0 => start
  | n + 1 => preserved n (run_lockstep related start preserved n)

/-- Two machines that stay related exactly as long as a condition holds give the
same outputs for ever if and only if it always holds. -/
theorem run_agree_iff {step' : Input' → State' → State'} {input' : Nat → Input'} {init' : State'}
    (related agree : State → State' → Prop) (held : Nat → Prop) (start : related init init')
    (agrees : ∀ s t, related s t → agree s t)
    (decides : ∀ n, related (run step input init n) (run step' input' init' n) →
      agree (run step input init (n + 1)) (run step' input' init' (n + 1)) → held n)
    (preserved : ∀ n, related (run step input init n) (run step' input' init' n) → held n →
      related (run step input init (n + 1)) (run step' input' init' (n + 1))) :
    (∀ n, agree (run step input init n) (run step' input' init' n)) ↔ ∀ n, held n := by
  constructor
  · intro same
    have both : ∀ n, related (run step input init n) (run step' input' init' n) :=
      run_lockstep related start (fun n now => preserved n now (decides n now (same (n + 1))))
    exact fun n => decides n (both n) (same (n + 1))
  · intro always n
    exact agrees _ _ (run_lockstep related start (fun n now => preserved n now (always n)) n)

/-- Two traces of a run agree at all times exactly when the events of every cycle agree. -/
theorem trace_eq_iff {out out' : Input → State → List Event} :
    (∀ n, trace out step input init n = trace out' step input init n) ↔
      ∀ n, out (input n) (run step input init n) = out' (input n) (run step input init n) := by
  constructor
  · intro same n
    have next := same (n + 1)
    rw [trace, trace, same n] at next
    exact List.append_cancel_left next
  · intro same n
    induction n with
    | zero => rfl
    | succ n ih => rw [trace, trace, ih, same n]

/-- Events that a machine has begun but not yet emitted are `pending`. If each of the first
`n` cycles moves pending events to the output in order and fresh ones join them, then
emitted and pending events together are all the fresh ones so far. -/
theorem trace_append_pending {out : Input → State → List Event}
    (pending expected : Nat → List Event) (start : pending 0 = expected 0) {n : Nat}
    (moves : ∀ k < n, ∃ fresh, expected (k + 1) = expected k ++ fresh ∧
      out (input k) (run step input init k) ++ pending (k + 1) = pending k ++ fresh) :
    ∀ k ≤ n, trace out step input init k ++ pending k = expected k
  | 0, _ => by simpa [trace] using start
  | k + 1, reached => by
    obtain ⟨fresh, grown, moved⟩ := moves k reached
    rw [trace, List.append_assoc, moved, ← List.append_assoc,
      trace_append_pending pending expected start moves k (Nat.le_of_succ_le reached), grown]

end Rules

end RiscvLab.Lib.Run
