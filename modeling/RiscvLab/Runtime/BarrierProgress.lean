import Mathlib.Algebra.BigOperators.Fin
import RiscvLab.Lib.Windows
import RiscvLab.Runtime.Barrier

/-!
# Leaving the barrier

If a thread inside the barrier is never passed over for good, the barrier opens once every
thread has called it: the threads that still have to add come to their additions, the last
one sets `sense`, and the others see it. Until all of them have left, `sense` does not change
again.
-/
namespace RiscvLab.Runtime
open RiscvLab.Lib.Run RiscvLab.Lib.Windows

variable {ncores : Nat} {schedule : Nat → Fin ncores} {n m : Nat} {t : Fin ncores}

/-- A thread inside the barrier gets its turn. Outside it may stay away for ever. -/
def Fair (schedule : Nat → Fin ncores) : Prop :=
  ∀ t n, (barrierRun schedule n).inside t = true → ∃ m, n ≤ m ∧ schedule m = t

section Counters

theorem entered_mono (t : Fin ncores) (later : n ≤ m) :
    entered schedule t n ≤ entered schedule t m := by
  induction m, later using Nat.le_induction with
  | base => exact Nat.le_refl _
  | succ m later ih => exact Nat.le_trans ih (Nat.le_add_right _ _)

/-- A thread that has not its turn stays where it is. -/
theorem threads_waiting (others : schedule n ≠ t) :
    (barrierRun schedule (n + 1)).threads t = (barrierRun schedule n).threads t := by
  have other : t ≠ schedule n := Ne.symm others
  change ((barrierRun schedule n).step (schedule n)).threads t = _
  rw [Barrier.step]
  split
  · exact Function.update_of_ne other _ _
  · split
    · exact Function.update_of_ne other _ _
    · exact Function.update_of_ne other _ _
  · exact Function.update_of_ne other _ _
  · exact Function.update_of_ne other _ _
  · split
    · rfl
    · exact Function.update_of_ne other _ _

theorem entered_waiting (others : schedule n ≠ t) :
    entered schedule t (n + 1) = entered schedule t n := by
  rw [entered, Barrier.inside, Barrier.inside, threads_waiting others]
  cases decide (((barrierRun schedule n).threads t).point ≠ .outside) <;> rfl

end Counters

section Released

/-- A thread that is left over from the last round: it has only to see the new `sense`. -/
structure Late (schedule : Nat → Fin ncores) (t : Fin ncores) (n : Nat) : Prop where
  spins : ((barrierRun schedule n).threads t).point = .spinning
  released : entered schedule t n = releases schedule n

/-- It stops the next round from being closed. -/
theorem Late.releases_eq (h : Late schedule t n) :
    releases schedule (n + 1) = releases schedule n := by
  have inv := barrierRun_inv schedule n
  have notWaiting : t ∉ waiting (barrierRun schedule n) (releases schedule n)
      (fun t => entered schedule t n) := by
    intro waits
    have next := (mem_waiting.mp waits).2
    have released := h.released
    change entered schedule t n = _ at next
    omega
  have none := inv.open_of notWaiting (by rw [h.spins]; rfl) (schedule n)
  have notReleasing : ((barrierRun schedule n).threads (schedule n)).point ≠ .releasing := by
    intro here
    rw [here] at none
    cases none
  rw [releases, decide_eq_false notReleasing]
  rfl

theorem Late.waits (h : Late schedule t n) (others : schedule n ≠ t) :
    Late schedule t (n + 1) := by
  refine ⟨?_, ?_⟩
  · rw [threads_waiting others]
    exact h.spins
  · rw [entered_waiting others, h.releases_eq]
    exact h.released

/-- On its turn it leaves. -/
theorem Late.leaves (h : Late schedule t n) (turn : schedule n = t) :
    left schedule t (n + 1) = entered schedule t n := by
  have inv := barrierRun_inv schedule n
  have seen : (barrierRun schedule n).sense =
      ((barrierRun schedule n).threads t).threadsense := by
    rw [inv.sense, inv.threadsense]
    exact congrArg Nat.bodd h.released.symm
  have moved : barrierRun schedule (n + 1) = (barrierRun schedule n).goto t .outside := by
    change (barrierRun schedule n).step (schedule n) = _
    rw [turn, Barrier.step, h.spins]
    exact if_neg (not_not.mpr seen)
  have outside : (barrierRun schedule (n + 1)).inside t = false := by
    rw [Barrier.inside, moved, goto_self (p := .outside) rfl]
    rfl
  have inside : (barrierRun schedule n).inside t = true := by
    rw [Barrier.inside, h.spins]
    rfl
  have account := entered_eq schedule t n
  rw [left, outside, inside, account, inside]
  rfl

theorem Late.returns (h : Late schedule t n) (fair : Fair schedule) :
    ∃ m, n ≤ m ∧ entered schedule t n ≤ left schedule t m := by
  have inside : (barrierRun schedule n).inside t = true := by
    rw [Barrier.inside, h.spins]
    rfl
  obtain ⟨m, later, ⟨late, same⟩, turn⟩ := until_met
    (fun j => Late schedule t j ∧ entered schedule t j = entered schedule t n)
    (fun j => schedule j = t) ⟨h, rfl⟩
    (fun j _ here others => ⟨here.1.waits others, (entered_waiting others).trans here.2⟩)
    (fair t n inside)
  exact ⟨m + 1, Nat.le_succ_of_le later, Nat.le_of_eq ((late.leaves turn).trans same).symm⟩

end Released

section Round

/-- The steps that a thread has before it waits or leaves. -/
def Point.steps : Point → Nat
  | .adding => 3
  | .clearing => 2
  | .releasing => 1
  | .outside | .spinning => 0

/-- The steps that are left in a round that everyone has called for. -/
def stepsLeft (schedule : Nat → Fin ncores) (n : Nat) : Nat :=
  ∑ t, ((barrierRun schedule n).threads t).point.steps

/-- Everyone has called for the round that is open. -/
def Called (schedule : Nat → Fin ncores) (n : Nat) : Prop :=
  ∀ t, entered schedule t n = releases schedule n + 1

theorem Called.later (h : Called schedule n) (later : n ≤ m)
    (same : releases schedule m = releases schedule n) : Called schedule m := by
  intro t
  have mono := @entered_mono _ schedule _ _ t later
  have bound := (calls_bounds schedule m t).2.1
  have called := h t
  omega

/-- The sum changes by what the moving thread does. -/
theorem stepsLeft_succ (schedule : Nat → Fin ncores) (n : Nat) :
    stepsLeft schedule (n + 1) +
        ((barrierRun schedule n).threads (schedule n)).point.steps =
      stepsLeft schedule n +
        ((barrierRun schedule (n + 1)).threads (schedule n)).point.steps := by
  have split : ∀ f : Fin ncores → Nat, ∑ t, f t =
      f (schedule n) + ∑ t ∈ Finset.univ.erase (schedule n), f t :=
    fun f => (Finset.add_sum_erase _ f (Finset.mem_univ _)).symm
  have rest : ∑ t ∈ Finset.univ.erase (schedule n),
        ((barrierRun schedule (n + 1)).threads t).point.steps =
      ∑ t ∈ Finset.univ.erase (schedule n), ((barrierRun schedule n).threads t).point.steps := by
    refine Finset.sum_congr rfl (fun t other => ?_)
    rw [threads_waiting (Ne.symm (Finset.ne_of_mem_erase other))]
  rw [stepsLeft, stepsLeft, split, split, rest]
  omega

/-- In a round that everyone has called for, a turn of a thread that is not waiting uses up
a step or ends the round, and a waiting thread stays. -/
theorem Called.turn (h : Called schedule n)
    (same : releases schedule (n + 1) = releases schedule n) :
    if ((barrierRun schedule n).threads (schedule n)).point = .spinning
    then stepsLeft schedule (n + 1) = stepsLeft schedule n
    else stepsLeft schedule (n + 1) < stepsLeft schedule n := by
  have inv := barrierRun_inv schedule n
  have called := h (schedule n)
  have account := stepsLeft_succ schedule n
  have next : barrierRun schedule (n + 1) = (barrierRun schedule n).step (schedule n) := rfl
  rw [next, Barrier.step] at account
  cases here : ((barrierRun schedule n).threads (schedule n)).point with
  | outside =>
    have place := inv.place (schedule n)
    rw [here] at place
    change entered schedule (schedule n) n = _ at place
    omega
  | adding =>
    simp only [here] at account
    rw [if_neg (by decide)]
    split at account <;> rw [goto_self rfl] at account <;>
      simp only [Point.steps] at account <;> omega
  | clearing =>
    simp only [here] at account
    rw [if_neg (by decide)]
    rw [goto_self rfl] at account
    simp only [Point.steps] at account
    omega
  | releasing =>
    rw [releases, decide_eq_true here] at same
    exact absurd same (Nat.succ_ne_self _)
  | spinning =>
    have unseen : (barrierRun schedule n).sense ≠
        ((barrierRun schedule n).threads (schedule n)).threadsense := by
      intro seen
      have old : entered schedule (schedule n) n = _ := inv.called_of_sense here seen
      omega
    simp only [here, if_pos unseen] at account
    rw [if_pos rfl]
    simp only [Point.steps] at account
    omega

/-- Somebody has still a step to make. -/
theorem Called.somebody (h : Called schedule n) :
    ∃ t, ((barrierRun schedule n).threads t).point ≠ .spinning ∧
      (barrierRun schedule n).inside t = true := by
  have inv := barrierRun_inv schedule n
  by_contra nobody
  have inside : ∀ t, (barrierRun schedule n).inside t = true := by
    intro t
    refine decide_eq_true (fun outside => ?_)
    have place := inv.place t
    rw [outside] at place
    have called := h t
    change entered schedule t n = _ at place
    omega
  have spins : ∀ t, ((barrierRun schedule n).threads t).point = .spinning := by
    intro t
    by_contra other
    exact nobody ⟨t, other, inside t⟩
  obtain ⟨count, room⟩ := inv.counted (fun t => by rw [spins t]; rfl)
  have all : waiting (barrierRun schedule n) (releases schedule n)
      (fun t => entered schedule t n) = Finset.univ :=
    Finset.eq_univ_iff_forall.mpr (fun t => mem_waiting.mpr ⟨spins t, h t⟩)
  rw [all, Finset.card_fin] at count
  omega

/-- The round that everyone has called for is closed. -/
theorem Called.released (h : Called schedule n) (fair : Fair schedule) :
    ∃ m, n ≤ m ∧ releases schedule m = releases schedule n + 1 := by
  by_contra never
  have stuck : ∀ m, n ≤ m → releases schedule m = releases schedule n := by
    intro m later
    induction m, later using Nat.le_induction with
    | base => rfl
    | succ m later ih =>
      cases here : decide (((barrierRun schedule m).threads (schedule m)).point = .releasing) with
      | false => rw [releases, here, ih]; rfl
      | true => exact absurd ⟨m + 1, Nat.le_succ_of_le later, by rw [releases, here, ih]; rfl⟩ never
  have called : ∀ m, n ≤ m → Called schedule m := fun m later => h.later later (stuck m later)
  have turn : ∀ m, n ≤ m → _ := fun m later =>
    (called m later).turn ((stuck (m + 1) (Nat.le_succ_of_le later)).trans (stuck m later).symm)
  refine no_descent (stepsLeft schedule) n (fun m later => ?_) (fun m later => ?_)
  · have changes := turn m later
    split at changes <;> omega
  · -- the thread that has a step to make keeps it until its turn
    obtain ⟨t, busy, inside⟩ := (called m later).somebody
    obtain ⟨j, after, here, mine⟩ := until_met
      (fun j => ((barrierRun schedule j).threads t).point =
        ((barrierRun schedule m).threads t).point) (fun j => schedule j = t) rfl
      (fun j _ here others => by rw [threads_waiting others]; exact here) (fair t m inside)
    have changes := turn j (Nat.le_trans later after)
    rw [mine, here, if_neg busy] at changes
    exact ⟨j, after, changes⟩

end Round

section Progress

/-- Whenever every thread has begun its `k`-th call, each of them returns from it. -/
theorem barrier_returns {k : Nat} (fair : Fair schedule)
    (called : ∀ t, k ≤ entered schedule t n) (t : Fin ncores) :
    ∃ m, n ≤ m ∧ k ≤ left schedule t m := by
  -- first the round in which `sense` lets them go
  have opened : ∃ m, n ≤ m ∧ k ≤ releases schedule m := by
    by_cases old : k ≤ releases schedule n
    · exact ⟨n, Nat.le_refl n, old⟩
    · have round : Called schedule n := by
        intro u
        have bound := (calls_bounds schedule n u).2.1
        have enough := called u
        omega
      obtain ⟨m, later, next⟩ := round.released fair
      have bound := (calls_bounds schedule n t).2.1
      have enough := called t
      exact ⟨m, later, by omega⟩
  obtain ⟨m, later, released⟩ := opened
  by_cases gone : k ≤ left schedule t m
  · exact ⟨m, later, gone⟩
  · obtain ⟨low, -, -⟩ := calls_bounds schedule m t
    have place := (barrierRun_inv schedule m).place t
    have late : Late schedule t m := by
      cases here : ((barrierRun schedule m).threads t).point with
      | spinning =>
        have account : entered schedule t m = left schedule t m + 1 :=
          entered_inside (by rw [here]; decide)
        exact ⟨here, by omega⟩
      | outside =>
        have account := entered_outside here
        rw [here] at place
        change entered schedule t m = _ at place
        omega
      | adding | clearing | releasing =>
        have account : entered schedule t m = left schedule t m + 1 :=
          entered_inside (by rw [here]; decide)
        rw [here] at place
        change entered schedule t m = _ at place
        omega
    obtain ⟨j, after, returned⟩ := late.returns fair
    exact ⟨j, Nat.le_trans later after, by omega⟩

/-- Two threads by turns. -/
def byTurns (n : Nat) : Fin 2 := ⟨n % 2, Nat.mod_lt n (by decide)⟩

/-- Both return from their first calls. -/
theorem barrier_returns_two : ∃ m, 2 ≤ m ∧ 1 ≤ left byTurns 0 m := by
  have fair : Fair byTurns := by
    intro t n _
    have bound := t.isLt
    exact ⟨2 * n + t, by omega, Fin.ext (show (2 * n + t) % 2 = t by omega)⟩
  exact barrier_returns (n := 2) (k := 1) fair (by decide) 0

end Progress

end RiscvLab.Runtime
