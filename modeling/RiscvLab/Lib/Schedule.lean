import Mathlib.Order.Monotone.Basic

/-!
# Issue schedules of an in-order machine

Jobs 0, 1, 2, ... are issued one after the other; job `k + 1` is issued `gap k`
cycles after job `k`. The countdown machine says what happens in each cycle,
the recurrence `issue` says when each job is issued, and the two agree.
-/
namespace RiscvLab.Lib.Schedule

/-- The next job to be issued and the number of cycles until then. -/
structure Slot where
  index : Nat
  wait : Nat
  deriving DecidableEq, Repr

def next (gap : Nat → Nat) (slot : Slot) : Slot :=
  match slot.wait with
  | 0 => ⟨slot.index + 1, gap slot.index - 1⟩
  | wait + 1 => ⟨slot.index, wait⟩

/-- The slot of cycle `n` when job 0 is issued in cycle `first`. -/
def slotAt (gap : Nat → Nat) (first : Nat) : Nat → Slot
  | 0 => ⟨0, first⟩
  | n + 1 => next gap (slotAt gap first n)

/-- The cycle in which job `k` is issued. -/
def issue (gap : Nat → Nat) (first : Nat) : Nat → Nat
  | 0 => first
  | k + 1 => issue gap first k + gap k

variable {gap : Nat → Nat} (first : Nat)

theorem issue_strictMono (positive : ∀ k, 1 ≤ gap k) : StrictMono (issue gap first) :=
  strictMono_nat_of_lt_succ (fun k => by have := positive k; simp only [issue]; omega)

/-- A slot always knows when its job will be issued. -/
theorem slotAt_issue (positive : ∀ k, 1 ≤ gap k) (n : Nat) :
    n + (slotAt gap first n).wait = issue gap first (slotAt gap first n).index := by
  induction n with
  | zero => simp [slotAt, issue]
  | succ n ih =>
    cases waiting : (slotAt gap first n).wait with
    | zero =>
      rw [waiting] at ih
      have gapped := positive (slotAt gap first n).index
      simp only [slotAt, next, waiting, issue]
      omega
    | succ wait =>
      rw [waiting] at ih
      simp only [slotAt, next, waiting]
      omega

/-- Every job before the slot's own was issued in an earlier cycle. -/
theorem issue_lt_of_lt_index (positive : ∀ k, 1 ≤ gap k) (n k : Nat)
    (h : k < (slotAt gap first n).index) : issue gap first k < n := by
  induction n with
  | zero => simp [slotAt] at h
  | succ n ih =>
    have due := slotAt_issue first positive n
    cases waiting : (slotAt gap first n).wait with
    | zero =>
      simp only [slotAt, next, waiting] at h
      rcases Nat.lt_succ_iff_lt_or_eq.mp h with earlier | own
      · exact Nat.lt_succ_of_lt (ih earlier)
      · rw [own]
        omega
    | succ wait =>
      simp only [slotAt, next, waiting] at h
      exact Nat.lt_succ_of_lt (ih h)

/-- The countdown reaches zero exactly in the cycle that the recurrence gives. -/
theorem slotAt_eq_iff (positive : ∀ k, 1 ≤ gap k) (n k : Nat) :
    slotAt gap first n = ⟨k, 0⟩ ↔ n = issue gap first k := by
  have due := slotAt_issue first positive n
  constructor
  · intro h
    simpa [h] using due
  · intro h
    have increasing := issue_strictMono first positive
    have not_before : ¬ (slotAt gap first n).index < k := by
      intro early
      have := increasing early
      omega
    have not_after : ¬ k < (slotAt gap first n).index := by
      intro late
      have := issue_lt_of_lt_index first positive n k late
      omega
    have same : (slotAt gap first n).index = k := by omega
    rw [same] at due
    have ready : (slotAt gap first n).wait = 0 := by omega
    rw [← same, ← ready]

/-- Before job `K` is issued the slot is an earlier one or still waits for it. -/
theorem slotAt_open (positive : ∀ k, 1 ≤ gap k) {n K : Nat}
    (before : n < issue gap first K) : (slotAt gap first n).index < K ∨
      (slotAt gap first n).index = K ∧ (slotAt gap first n).wait ≠ 0 := by
  have due := slotAt_issue first positive n
  rcases Nat.lt_trichotomy (slotAt gap first n).index K with earlier | same | later
  · exact .inl earlier
  · refine .inr ⟨same, fun now => ?_⟩
    rw [same, now] at due
    omega
  · have passed := issue_lt_of_lt_index first positive n K later
    omega

end RiscvLab.Lib.Schedule
