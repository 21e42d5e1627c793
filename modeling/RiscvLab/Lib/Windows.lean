import Mathlib.Data.Nat.Init

/-!
# Windows of a run

A window opens in a cycle of one kind and stays open up to a cycle of another
kind. A value is kept through every window if and only if no step inside a window
changes it.
-/
namespace RiscvLab.Lib.Windows

variable {start stop : Nat → Prop}

/-- A window that was opened before `m` has not been closed before `m`. -/
def Open (start stop : Nat → Prop) (m : Nat) : Prop :=
  ∃ n < m, start n ∧ ∀ j, n ≤ j → j < m → ¬ stop j

theorem not_open_zero : ¬ Open start stop 0 := fun ⟨_, before, _⟩ => Nat.not_lt_zero _ before

/-- The window of `n` is open in `m`. -/
theorem open_of_start {n m : Nat} (before : n < m) (starts : start n)
    (runs : ∀ j, n ≤ j → j < m → ¬ stop j) : Open start stop m := ⟨n, before, starts, runs⟩

theorem open_succ {m : Nat} : Open start stop (m + 1) ↔
    (start m ∨ Open start stop m) ∧ ¬ stop m := by
  constructor
  · rintro ⟨n, before, starts, runs⟩
    refine ⟨?_, runs m (by omega) (by omega)⟩
    rcases Nat.lt_succ_iff_lt_or_eq.mp before with earlier | rfl
    · exact .inr ⟨n, earlier, starts, fun j later earlier => runs j later (by omega)⟩
    · exact .inl starts
  · rintro ⟨starts | ⟨n, before, starts, runs⟩, running⟩
    · refine ⟨m, by omega, starts, fun j later earlier => ?_⟩
      have same : j = m := by omega
      rwa [same]
    · refine ⟨n, by omega, starts, fun j later earlier => ?_⟩
      rcases Nat.lt_succ_iff_lt_or_eq.mp earlier with inside | rfl
      · exact runs j later inside
      · exact running

/-- A set of cycles that is entered at a start and left at a stop is that of the
open windows. -/
theorem open_iff (inside : Nat → Prop) (outside : ¬ inside 0)
    (step : ∀ m, inside (m + 1) ↔ (start m ∨ inside m) ∧ ¬ stop m) :
    ∀ m, Open start stop m ↔ inside m
  | 0 => iff_of_false not_open_zero outside
  | m + 1 => by rw [open_succ, step, open_iff inside outside step m]

/-- Windows of two kinds are open together where one of either kind is. -/
theorem open_kinds (kind : Nat → Bool) (m : Nat) : Open start stop m ↔
    Open (fun n => start n ∧ kind n = false) stop m ∨
      Open (fun n => start n ∧ kind n = true) stop m := by
  constructor
  · rintro ⟨n, before, starts, runs⟩
    cases which : kind n with
    | false => exact .inl ⟨n, before, ⟨starts, which⟩, runs⟩
    | true => exact .inr ⟨n, before, ⟨starts, which⟩, runs⟩
  · rintro (⟨n, before, starts, runs⟩ | ⟨n, before, starts, runs⟩)
    · exact ⟨n, before, starts.1, runs⟩
    · exact ⟨n, before, starts.1, runs⟩

/-- A value is kept from each start up to its stop exactly when no step inside a
window changes it. -/
theorem kept_iff {Value : Type*} (start stop : Nat → Prop) (value : Nat → Value) :
    (∀ n m, start n → n ≤ m → (∀ j, n ≤ j → j < m → ¬ stop j) → value m = value n) ↔
      ∀ m, Open start stop (m + 1) → value (m + 1) = value m := by
  constructor
  · rintro kept m ⟨n, before, starts, runs⟩
    rw [kept n (m + 1) starts (by omega) runs,
      kept n m starts (by omega) (fun j later earlier => runs j later (by omega))]
  · intro step n m starts later runs
    induction m with
    | zero =>
      have same : n = 0 := by omega
      rw [same]
    | succ m ih =>
      rcases Nat.lt_succ_iff_lt_or_eq.mp (Nat.lt_succ_of_le later) with before | rfl
      · rw [step m (open_of_start before starts runs)]
        exact ih (by omega) (fun j later earlier => runs j later (by omega))
      · rfl

/-- What holds in the first marked cycle and is carried from each marked cycle to the next one
holds in all of them. -/
theorem marked_induction {mark holds : Nat → Prop} (first : mark 0) (start : holds 0)
    (carried : ∀ s m, mark s → mark m → s < m → (∀ j, s < j → j < m → ¬ mark j) →
      holds s → holds m) : ∀ n, mark n → holds n := by
  have latest : ∀ n, ∃ s ≤ n, mark s ∧ (∀ j, s < j → j ≤ n → ¬ mark j) := by
    intro n
    induction n with
    | zero => exact ⟨0, Nat.le_refl 0, first, fun j later within => by omega⟩
    | succ n ih =>
      by_cases now : mark (n + 1)
      · exact ⟨n + 1, Nat.le_refl _, now, fun j later within => by omega⟩
      · obtain ⟨s, before, marked, none⟩ := ih
        refine ⟨s, Nat.le_succ_of_le before, marked, fun j later within => ?_⟩
        rcases Nat.lt_or_eq_of_le within with earlier | rfl
        · exact none j later (Nat.le_of_lt_succ earlier)
        · exact now
  intro n
  induction n using Nat.strong_induction_on with
  | _ n ih =>
    intro now
    cases n with
    | zero => exact start
    | succ n =>
      obtain ⟨s, before, marked, none⟩ := latest n
      exact carried s (n + 1) marked now (Nat.lt_succ_of_le before)
        (fun j later earlier => none j later (Nat.le_of_lt_succ earlier))
        (ih s (Nat.lt_succ_of_le before) marked)

/-- Of the marked cycles after a cycle there is a first one. -/
theorem first_after {mark : Nat → Prop} {s : Nat} (some_later : ∃ m, s < m ∧ mark m) :
    ∃ m, s < m ∧ mark m ∧ ∀ j, s < j → j < m → ¬ mark j := by
  obtain ⟨m, later, marked⟩ := some_later
  induction m using Nat.strong_induction_on with
  | _ m ih =>
    by_cases earlier : ∃ j, j < m ∧ s < j ∧ mark j
    · obtain ⟨j, before, after, here⟩ := earlier
      exact ih j before after here
    · exact ⟨m, later, marked, fun j after before here => earlier ⟨j, before, after, here⟩⟩

/-- What lasts until something happens is there when it happens. -/
theorem until_met (holds met : Nat → Prop) {n : Nat} (now : holds n)
    (lasts : ∀ j, n ≤ j → holds j → ¬ met j → holds (j + 1)) (happens : ∃ m, n ≤ m ∧ met m) :
    ∃ m, n ≤ m ∧ holds m ∧ met m := by
  have so_far : ∀ j, n ≤ j → holds j ∨ ∃ m, n ≤ m ∧ holds m ∧ met m := by
    intro j later
    induction j, later using Nat.le_induction with
    | base => exact .inl now
    | succ j later ih =>
      rcases ih with still | ended
      · by_cases meets : met j
        · exact .inr ⟨j, later, still, meets⟩
        · exact .inl (lasts j later still meets)
      · exact .inr ended
  obtain ⟨m, later, meets⟩ := happens
  exact (so_far m later).elim (fun still => ⟨m, later, still, meets⟩) id

/-- What never grows does not fall again and again. -/
theorem no_descent (rank : Nat → Nat) (n : Nat) (falling : ∀ m, n ≤ m → rank (m + 1) ≤ rank m)
    (drops : ∀ m, n ≤ m → ∃ j, m ≤ j ∧ rank (j + 1) < rank j) : False := by
  have never_more : ∀ m j, n ≤ m → m ≤ j → rank j ≤ rank m := by
    intro m j later after
    induction j, after using Nat.le_induction with
    | base => exact Nat.le_refl _
    | succ j after ih => exact Nat.le_trans (falling j (Nat.le_trans later after)) ih
  have below : ∀ bound m, n ≤ m → rank m ≤ bound → False := by
    intro bound
    induction bound with
    | zero =>
      intro m later zero
      obtain ⟨j, after, drop⟩ := drops m later
      have small := never_more m j later after
      omega
    | succ bound ih =>
      intro m later within
      obtain ⟨j, after, drop⟩ := drops m later
      have small := never_more m j later after
      exact ih (j + 1) (by omega) (by omega)
  exact below (rank n) n (Nat.le_refl n) (Nat.le_refl _)

/-- What comes again with a smaller rank until a goal is reached ends at the goal. -/
theorem reached_by_rank (holds : Nat → Prop) {goal : Nat → Prop} (rank : Nat → Nat) {n : Nat}
    (now : holds n)
    (onward : ∀ m, n ≤ m → holds m → ∃ j, m ≤ j ∧ (goal j ∨ holds j ∧ rank j < rank m)) :
    ∃ j, n ≤ j ∧ goal j := by
  have below : ∀ bound m, n ≤ m → holds m → rank m < bound → ∃ j, n ≤ j ∧ goal j := by
    intro bound
    induction bound with
    | zero => exact fun m _ _ none => absurd none (Nat.not_lt_zero _)
    | succ bound ih =>
      intro m later here within
      obtain ⟨j, after, reached | ⟨again, smaller⟩⟩ := onward m later here
      · exact ⟨j, Nat.le_trans later after, reached⟩
      · exact ih j (Nat.le_trans later after) again (by omega)
  exact below (rank n + 1) n (Nat.le_refl n) now (Nat.lt_succ_self _)

/-- A signal that is held until it is taken, and is taken some time, is low from then on. -/
theorem falls (valid ready : Nat → Bool) {n : Nat}
    (held : ∀ j, n ≤ j → valid (j + 1) = (valid j && !ready j))
    (accepts : valid n = true → ∃ m, n ≤ m ∧ ready m = true) :
    ∃ m, n ≤ m ∧ ∀ j, m ≤ j → valid j = false := by
  have stays : ∀ m, n ≤ m → valid m = false → ∀ j, m ≤ j → valid j = false := by
    intro m later low j after
    induction j, after using Nat.le_induction with
    | base => exact low
    | succ j after ih => rw [held j (Nat.le_trans later after), ih, Bool.false_and]
  cases now : valid n with
  | false => exact ⟨n, Nat.le_refl n, stays n (Nat.le_refl n) now⟩
  | true =>
    obtain ⟨m, later, high, taken⟩ := until_met (fun j => valid j = true)
      (fun j => ready j = true) now
      (fun j later high low => by rw [held j later, high, Bool.eq_false_iff.mpr low]; rfl)
      (accepts now)
    refine ⟨m + 1, Nat.le_succ_of_le later, stays (m + 1) (Nat.le_succ_of_le later) ?_⟩
    rw [held m later, taken, Bool.not_true, Bool.and_false]

end RiscvLab.Lib.Windows
