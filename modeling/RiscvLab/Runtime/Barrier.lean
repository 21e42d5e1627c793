import Mathlib.Data.Fintype.Card
import Mathlib.Data.Nat.Bits
import RiscvLab.Lib.Run

/-!
# The barrier

`barrier` of lab1/common/util.h, for any number of threads that call it as often as they
like. Between its two fences the accesses to `sense` and `count` are taken one at a time, in
any order of the threads. A thread is moved by one of its accesses, or by its call.
-/
namespace RiscvLab.Runtime
open RiscvLab.Lib.Run

/-- What a thread does next: call `barrier`, add to `count`, clear `count`, set `sense`, or
compare `sense` once more. -/
inductive Point
  | outside
  | adding
  | clearing
  | releasing
  | spinning
  deriving DecidableEq, Repr

structure Thread where
  point : Point
  threadsense : Bool
  deriving DecidableEq, Repr

/-- The static variables and the threads. -/
structure Barrier (ncores : Nat) where
  sense : Bool
  count : Nat
  threads : Fin ncores → Thread

namespace Barrier

variable {ncores : Nat}

def init : Barrier ncores := ⟨false, 0, fun _ => ⟨.outside, false⟩⟩

def move (s : Barrier ncores) (t : Fin ncores) (thread : Thread) : Barrier ncores :=
  { s with threads := Function.update s.threads t thread }

def goto (s : Barrier ncores) (t : Fin ncores) (point : Point) : Barrier ncores :=
  s.move t { s.threads t with point := point }

/-- One access of thread `t`. -/
def step (t : Fin ncores) (s : Barrier ncores) : Barrier ncores :=
  match (s.threads t).point with
  | .outside => s.move t ⟨.adding, !(s.threads t).threadsense⟩
  | .adding =>
    -- __sync_fetch_and_add(&count, 1) == ncores-1
    if s.count = ncores - 1 then { s.goto t .clearing with count := s.count + 1 }
    else { s.goto t .spinning with count := s.count + 1 }
  | .clearing => { s.goto t .releasing with count := 0 }
  | .releasing => { s.goto t .outside with sense := (s.threads t).threadsense }
  | .spinning => if s.sense ≠ (s.threads t).threadsense then s else s.goto t .outside

def inside (s : Barrier ncores) (t : Fin ncores) : Bool := decide ((s.threads t).point ≠ .outside)

end Barrier

section Run

variable {ncores : Nat} (schedule : Nat → Fin ncores)

/-- The state after `n` accesses. -/
def barrierRun : Nat → Barrier ncores := run Barrier.step schedule .init

/-- The calls that a thread has begun. -/
def entered (t : Fin ncores) : Nat → Nat
  | 0 => 0
  | n + 1 => entered t n +
    (!(barrierRun schedule n).inside t && (barrierRun schedule (n + 1)).inside t).toNat

/-- The calls that a thread has returned from. -/
def left (t : Fin ncores) : Nat → Nat
  | 0 => 0
  | n + 1 => left t n +
    ((barrierRun schedule n).inside t && !(barrierRun schedule (n + 1)).inside t).toNat

/-- How often `sense` has been set. -/
def releases : Nat → Nat
  | 0 => 0
  | n + 1 => releases n +
    (decide (((barrierRun schedule n).threads (schedule n)).point = .releasing)).toNat

theorem entered_eq (t : Fin ncores) (n : Nat) :
    entered schedule t n = left schedule t n + ((barrierRun schedule n).inside t).toNat := by
  induction n with
  | zero => rfl
  | succ n ih =>
    rw [entered, left, ih]
    cases (barrierRun schedule n).inside t <;> cases (barrierRun schedule (n + 1)).inside t <;> rfl

variable {schedule} {t : Fin ncores} {n : Nat}

theorem entered_outside (here : ((barrierRun schedule n).threads t).point = .outside) :
    entered schedule t n = left schedule t n := by
  rw [entered_eq, Barrier.inside, here]
  rfl

theorem entered_inside (here : ((barrierRun schedule n).threads t).point ≠ .outside) :
    entered schedule t n = left schedule t n + 1 := by
  rw [entered_eq, Barrier.inside, decide_eq_true here]
  rfl

end Run

section Invariant

variable {ncores : Nat} {s : Barrier ncores} {t u : Fin ncores} {epoch : Nat}
  {calls : Fin ncores → Nat}

/-- How often a thread has called at each point, in a round. -/
def Place (epoch calls : Nat) : Point → Prop
  | .outside => calls = epoch
  | .adding | .clearing | .releasing => calls = epoch + 1
  | .spinning => calls = epoch ∨ calls = epoch + 1

/-- The threads that wait for the next change of `sense`. -/
def waiting (s : Barrier ncores) (epoch : Nat) (calls : Fin ncores → Nat) : Finset (Fin ncores) :=
  Finset.univ.filter fun t => (s.threads t).point = .spinning ∧ calls t = epoch + 1

/-- The thread that came last. -/
def Point.closing : Point → Bool
  | .clearing | .releasing => true
  | _ => false

/-- The state in round `epoch`. The last thread is alone with waiting ones. -/
structure Barrier.Inv (s : Barrier ncores) (epoch : Nat) (calls : Fin ncores → Nat) : Prop where
  sense : s.sense = epoch.bodd
  threadsense : ∀ t, (s.threads t).threadsense = (calls t).bodd
  place : ∀ t, Place epoch (calls t) (s.threads t).point
  alone : ∀ t, (s.threads t).point.closing = true → ∀ u, u ≠ t → u ∈ waiting s epoch calls
  counted : (∀ t, (s.threads t).point.closing = false) →
    s.count = (waiting s epoch calls).card ∧ s.count < ncores
  full : ∀ t, (s.threads t).point = .clearing → s.count = ncores
  cleared : ∀ t, (s.threads t).point = .releasing → s.count = 0

theorem mem_waiting : t ∈ waiting s epoch calls ↔
    (s.threads t).point = .spinning ∧ calls t = epoch + 1 := by
  simp [waiting]

theorem init_inv (t : Fin ncores) : (Barrier.init : Barrier ncores).Inv 0 (fun _ => 0) := by
  refine ⟨rfl, fun _ => rfl, fun _ => rfl, nofun, fun _ => ⟨?_, ?_⟩, nofun, nofun⟩
  · simp [waiting, Barrier.init]
  · exact Nat.lt_of_le_of_lt (Nat.zero_le _) t.isLt

/-- A thread that does not wait keeps everyone from closing the round. -/
theorem Barrier.Inv.open_of (h : s.Inv epoch calls) (here : t ∉ waiting s epoch calls)
    (notClosing : (s.threads t).point.closing = false) (u : Fin ncores) :
    (s.threads u).point.closing = false := by
  by_contra closing
  rw [Bool.not_eq_false] at closing
  have other : t ≠ u := by
    rintro rfl
    rw [notClosing] at closing
    cases closing
  exact here (h.alone u closing t other)

/-- The invariant of a round that nobody closes. -/
theorem Barrier.Inv.of_open (sense : s.sense = epoch.bodd)
    (threadsense : ∀ t, (s.threads t).threadsense = (calls t).bodd)
    (place : ∀ t, Place epoch (calls t) (s.threads t).point)
    (none : ∀ t, (s.threads t).point.closing = false)
    (counted : s.count = (waiting s epoch calls).card ∧ s.count < ncores) :
    s.Inv epoch calls := by
  refine ⟨sense, threadsense, place, fun t closing => ?_, fun _ => counted, fun t clearing => ?_,
    fun t releasing => ?_⟩
  · rw [none t] at closing
    cases closing
  · have closing := none t
    rw [clearing] at closing
    cases closing
  · have closing := none t
    rw [releasing] at closing
    cases closing

/-- The invariant of a round that one thread closes. -/
theorem Barrier.Inv.of_closing (sense : s.sense = epoch.bodd)
    (threadsense : ∀ t, (s.threads t).threadsense = (calls t).bodd)
    (place : ∀ t, Place epoch (calls t) (s.threads t).point)
    (closes : (s.threads t).point.closing = true)
    (alone : ∀ u, u ≠ t → u ∈ waiting s epoch calls)
    (count : ((s.threads t).point = .clearing → s.count = ncores) ∧
      ((s.threads t).point = .releasing → s.count = 0)) :
    s.Inv epoch calls := by
  have only : ∀ u, (s.threads u).point.closing = true → u = t := by
    intro u closing
    by_contra other
    rw [(mem_waiting.mp (alone u other)).1] at closing
    cases closing
  refine ⟨sense, threadsense, place, fun u closing => ?_, fun none => ?_, fun u clearing => ?_,
    fun u releasing => ?_⟩
  · rw [only u closing]
    exact alone
  · rw [none t] at closes
    cases closes
  · obtain rfl := only u (by rw [clearing]; rfl)
    exact count.1 clearing
  · obtain rfl := only u (by rw [releasing]; rfl)
    exact count.2 releasing

section Goto

variable {s' : Barrier ncores} {p : Point} (threads : s'.threads = (s.goto t p).threads)

include threads

theorem goto_self : s'.threads t = { s.threads t with point := p } := by
  rw [threads]
  exact Function.update_self _ _ _

theorem goto_other {u : Fin ncores} (other : u ≠ t) : s'.threads u = s.threads u := by
  rw [threads]
  exact Function.update_of_ne other _ _

/-- A thread that goes to another point keeps its sense. -/
theorem threadsense_goto (h : s.Inv epoch calls) (u : Fin ncores) :
    (s'.threads u).threadsense = (calls u).bodd := by
  by_cases me : u = t
  · rw [me, goto_self threads]
    exact h.threadsense t
  · rw [goto_other threads me]
    exact h.threadsense u

theorem place_goto (h : s.Inv epoch calls) (place : Place epoch (calls t) p)
    (u : Fin ncores) : Place epoch (calls u) (s'.threads u).point := by
  by_cases me : u = t
  · rw [me, goto_self threads]
    exact place
  · rw [goto_other threads me]
    exact h.place u

theorem closing_goto (none : ∀ u, (s.threads u).point.closing = false)
    (own : p.closing = false) (u : Fin ncores) : (s'.threads u).point.closing = false := by
  by_cases me : u = t
  · rw [me, goto_self threads]
    exact own
  · rw [goto_other threads me, none]

/-- A thread that waits neither before nor after leaves the waiting ones as they are. -/
theorem waiting_goto (before : t ∉ waiting s epoch calls) (after : p ≠ .spinning) :
    waiting s' epoch calls = waiting s epoch calls := by
  ext u
  rw [mem_waiting, mem_waiting]
  by_cases me : u = t
  · rw [me, goto_self threads]
    exact iff_of_false (fun waits => after waits.1) (fun waits => before (mem_waiting.mpr waits))
  · rw [goto_other threads me]

end Goto

section Steps

theorem not_waiting {point : Point} (here : (s.threads t).point = point)
    (other : point ≠ .spinning) : t ∉ waiting s epoch calls :=
  fun waits => other (here.symm.trans (mem_waiting.mp waits).1)

/-- A call of the barrier. -/
theorem Barrier.Inv.outside (h : s.Inv epoch calls) (here : (s.threads t).point = .outside) :
    (s.move t ⟨.adding, !(s.threads t).threadsense⟩).Inv epoch
      (Function.update calls t (calls t + 1)) := by
  have place := h.place t
  rw [here] at place
  have none := h.open_of (not_waiting here (by decide)) (by rw [here]; rfl)
  have self : (s.move t ⟨.adding, !(s.threads t).threadsense⟩).threads t =
      ⟨.adding, !(s.threads t).threadsense⟩ := Function.update_self _ _ _
  have other : ∀ u, u ≠ t →
      (s.move t ⟨.adding, !(s.threads t).threadsense⟩).threads u = s.threads u ∧
        Function.update calls t (calls t + 1) u = calls u :=
    fun u other => ⟨Function.update_of_ne other _ _, Function.update_of_ne other _ _⟩
  refine .of_open h.sense (fun u => ?_) (fun u => ?_) (fun u => ?_) ?_
  · by_cases me : u = t
    · rw [me, self, Function.update_self, Nat.bodd_succ, h.threadsense]
    · rw [(other u me).1, (other u me).2, h.threadsense]
  · by_cases me : u = t
    · rw [me, self, Function.update_self]
      exact congrArg (· + 1) place
    · rw [(other u me).1, (other u me).2]
      exact h.place u
  · by_cases me : u = t
    · rw [me, self]
      rfl
    · rw [(other u me).1, none]
  · have same : waiting (s.move t ⟨.adding, !(s.threads t).threadsense⟩) epoch
        (Function.update calls t (calls t + 1)) = waiting s epoch calls := by
      ext u
      rw [mem_waiting, mem_waiting]
      by_cases me : u = t
      · rw [me, self, here]
        exact iff_of_false (fun waits => by cases waits.1) (fun waits => by cases waits.1)
      · rw [(other u me).1, (other u me).2]
    rw [same]
    exact h.counted none

/-- The addition of a thread that is not the last one. -/
theorem Barrier.Inv.adding (h : s.Inv epoch calls) (here : (s.threads t).point = .adding)
    (more : s.count ≠ ncores - 1) :
    ({ s.goto t .spinning with count := s.count + 1 } : Barrier ncores).Inv epoch calls := by
  have place := h.place t
  rw [here] at place
  have notWaiting : t ∉ waiting s epoch calls := not_waiting here (by decide)
  have none := h.open_of notWaiting (by rw [here]; rfl)
  obtain ⟨count, room⟩ := h.counted none
  have joined : waiting { s.goto t .spinning with count := s.count + 1 } epoch calls =
      insert t (waiting s epoch calls) := by
    ext u
    rw [Finset.mem_insert, mem_waiting, mem_waiting]
    by_cases me : u = t
    · rw [me, goto_self (p := .spinning) rfl]
      exact iff_of_true ⟨rfl, place⟩ (.inl rfl)
    · rw [goto_other (p := .spinning) rfl me, or_iff_right me]
  refine .of_open h.sense (threadsense_goto rfl h) (place_goto rfl h (.inr place))
    (closing_goto rfl none rfl) ⟨?_, ?_⟩
  · rw [joined, Finset.card_insert_of_notMem notWaiting, ← count]
  · change s.count + 1 < ncores
    omega

/-- The addition of the last thread, which finds all others waiting. -/
theorem Barrier.Inv.adding_last (h : s.Inv epoch calls) (here : (s.threads t).point = .adding)
    (last : s.count = ncores - 1) :
    ({ s.goto t .clearing with count := s.count + 1 } : Barrier ncores).Inv epoch calls := by
  have place := h.place t
  rw [here] at place
  have notWaiting : t ∉ waiting s epoch calls := not_waiting here (by decide)
  have none := h.open_of notWaiting (by rw [here]; rfl)
  obtain ⟨count, -⟩ := h.counted none
  have all : waiting s epoch calls = Finset.univ.erase t := by
    refine Finset.eq_of_subset_of_card_le (fun u waits => ?_) ?_
    · rw [Finset.mem_erase]
      refine ⟨?_, Finset.mem_univ u⟩
      rintro rfl
      exact notWaiting waits
    · rw [Finset.card_erase_of_mem (Finset.mem_univ t), Finset.card_fin]
      omega
  have same : waiting { s.goto t .clearing with count := s.count + 1 } epoch calls =
      waiting s epoch calls := waiting_goto (p := .clearing) rfl notWaiting (by decide)
  refine .of_closing (t := t) h.sense (threadsense_goto rfl h) (place_goto rfl h place)
    (by rw [goto_self (p := .clearing) rfl]; rfl) (fun u other => ?_)
    ⟨fun _ => ?_, fun releasing => ?_⟩
  · rw [same, all]
    exact Finset.mem_erase.mpr ⟨other, Finset.mem_univ u⟩
  · have inhabited := t.isLt
    change s.count + 1 = ncores
    omega
  · rw [goto_self (p := .clearing) rfl] at releasing
    cases releasing

/-- `count` is cleared before `sense` is set. -/
theorem Barrier.Inv.clearing (h : s.Inv epoch calls) (here : (s.threads t).point = .clearing) :
    ({ s.goto t .releasing with count := 0 } : Barrier ncores).Inv epoch calls := by
  have place := h.place t
  rw [here] at place
  have same : waiting { s.goto t .releasing with count := 0 } epoch calls =
      waiting s epoch calls :=
    waiting_goto (p := .releasing) rfl (not_waiting here (by decide)) (by decide)
  refine .of_closing (t := t) h.sense (threadsense_goto rfl h) (place_goto rfl h place)
    (by rw [goto_self (p := .releasing) rfl]; rfl) (fun u other => ?_)
    ⟨fun clearing => ?_, fun _ => rfl⟩
  · rw [same]
    exact h.alone t (by rw [here]; rfl) u other
  · rw [goto_self (p := .releasing) rfl] at clearing
    cases clearing

/-- With `sense` the next round begins. All other threads are about to leave the last one. -/
theorem Barrier.Inv.releasing (h : s.Inv epoch calls) (here : (s.threads t).point = .releasing) :
    ({ s.goto t .outside with sense := (s.threads t).threadsense } : Barrier ncores).Inv
      (epoch + 1) calls := by
  have place := h.place t
  rw [here] at place
  have waits : ∀ u, u ≠ t → (s.threads u).point = .spinning ∧ calls u = epoch + 1 :=
    fun u other => mem_waiting.mp (h.alone t (by rw [here]; rfl) u other)
  have called : ∀ u, calls u = epoch + 1 := by
    intro u
    by_cases me : u = t
    · rw [me]
      exact place
    · exact (waits u me).2
  refine .of_open ?_ (threadsense_goto rfl h) (fun u => ?_) (fun u => ?_) ⟨?_, ?_⟩
  · change (s.threads t).threadsense = _
    rw [h.threadsense, called]
  · by_cases me : u = t
    · rw [me, goto_self (p := .outside) rfl]
      exact place
    · rw [goto_other (p := .outside) rfl me, (waits u me).1]
      exact .inl (called u)
  · by_cases me : u = t
    · rw [me, goto_self (p := .outside) rfl]
      rfl
    · rw [goto_other (p := .outside) rfl me, (waits u me).1]
      rfl
  · refine (h.cleared t here).trans (Finset.card_eq_zero.mpr ?_).symm
    refine Finset.eq_empty_of_forall_notMem (fun u waits => ?_)
    have later := (mem_waiting.mp waits).2
    rw [called] at later
    omega
  · change s.count < ncores
    rw [h.cleared t here]
    exact Nat.lt_of_le_of_lt (Nat.zero_le _) t.isLt

/-- A thread that sees its own sense is one of the last round. -/
theorem Barrier.Inv.called_of_sense (h : s.Inv epoch calls)
    (here : (s.threads t).point = .spinning) (seen : s.sense = (s.threads t).threadsense) :
    calls t = epoch := by
  have place := h.place t
  rw [here] at place
  rcases place with old | new
  · exact old
  · rw [h.sense, h.threadsense, new, Nat.bodd_succ] at seen
    exact absurd seen (by cases Nat.bodd epoch <;> decide)

/-- A thread leaves its loop. -/
theorem Barrier.Inv.spinning (h : s.Inv epoch calls) (here : (s.threads t).point = .spinning)
    (seen : s.sense = (s.threads t).threadsense) : (s.goto t .outside).Inv epoch calls := by
  have called := h.called_of_sense here seen
  have notWaiting : t ∉ waiting s epoch calls := by
    intro waits
    have later := (mem_waiting.mp waits).2
    omega
  have none := h.open_of notWaiting (by rw [here]; rfl)
  refine .of_open h.sense (threadsense_goto rfl h) (place_goto rfl h called)
    (closing_goto rfl none rfl) ?_
  rw [waiting_goto rfl notWaiting (by decide)]
  exact h.counted none

end Steps

end Invariant

section Safety

variable {ncores : Nat} {schedule : Nat → Fin ncores} {n : Nat}

/-- A call is counted where a thread was outside. -/
theorem entered_goto {p : Point}
    (here : ((barrierRun schedule n).threads (schedule n)).point ≠ .outside)
    (threads : (barrierRun schedule (n + 1)).threads =
      ((barrierRun schedule n).goto (schedule n) p).threads) :
    (fun t => entered schedule t (n + 1)) = fun t => entered schedule t n := by
  funext t
  rw [entered, Barrier.inside, Barrier.inside]
  by_cases me : t = schedule n
  · rw [me, decide_eq_true here]
    rfl
  · rw [goto_other threads me]
    cases decide (((barrierRun schedule n).threads t).point ≠ .outside) <;> rfl

/-- The invariant of every run: the round is the number of releases. -/
theorem barrierRun_inv (schedule : Nat → Fin ncores) (n : Nat) :
    (barrierRun schedule n).Inv (releases schedule n) (fun t => entered schedule t n) := by
  induction n with
  | zero => exact init_inv (schedule 0)
  | succ n ih =>
    have next : barrierRun schedule (n + 1) =
        (barrierRun schedule n).step (schedule n) := rfl
    cases here : ((barrierRun schedule n).threads (schedule n)).point with
    | outside =>
      have moved : barrierRun schedule (n + 1) = (barrierRun schedule n).move (schedule n)
          ⟨.adding, !((barrierRun schedule n).threads (schedule n)).threadsense⟩ := by
        rw [next, Barrier.step, here]
      have calls : (fun t => entered schedule t (n + 1)) = Function.update
          (fun t => entered schedule t n) (schedule n) (entered schedule (schedule n) n + 1) := by
        funext t
        rw [entered, Barrier.inside, Barrier.inside, moved]
        by_cases me : t = schedule n
        · rw [me, Function.update_self, here]
          simp [Barrier.move]
        · simp [Barrier.move, me]
      rw [releases, here, calls, moved]
      exact ih.outside here
    | adding =>
      rw [releases, here]
      by_cases last : (barrierRun schedule n).count = ncores - 1
      · have moved : barrierRun schedule (n + 1) =
            { (barrierRun schedule n).goto (schedule n) .clearing with
              count := (barrierRun schedule n).count + 1 } := by
          rw [next, Barrier.step, here]
          exact if_pos last
        rw [entered_goto (p := .clearing) (by rw [here]; decide) (by rw [moved]), moved]
        exact ih.adding_last here last
      · have moved : barrierRun schedule (n + 1) =
            { (barrierRun schedule n).goto (schedule n) .spinning with
              count := (barrierRun schedule n).count + 1 } := by
          rw [next, Barrier.step, here]
          exact if_neg last
        rw [entered_goto (p := .spinning) (by rw [here]; decide) (by rw [moved]), moved]
        exact ih.adding here last
    | clearing =>
      have moved : barrierRun schedule (n + 1) =
          { (barrierRun schedule n).goto (schedule n) .releasing with count := 0 } := by
        rw [next, Barrier.step, here]
      rw [releases, here,
        entered_goto (p := .releasing) (by rw [here]; decide) (by rw [moved]), moved]
      exact ih.clearing here
    | releasing =>
      have moved : barrierRun schedule (n + 1) =
          { (barrierRun schedule n).goto (schedule n) .outside with
            sense := ((barrierRun schedule n).threads (schedule n)).threadsense } := by
        rw [next, Barrier.step, here]
      rw [releases, here,
        entered_goto (p := .outside) (by rw [here]; decide) (by rw [moved]), moved]
      exact ih.releasing here
    | spinning =>
      rw [releases, here]
      by_cases seen : (barrierRun schedule n).sense =
          ((barrierRun schedule n).threads (schedule n)).threadsense
      · have moved : barrierRun schedule (n + 1) =
            (barrierRun schedule n).goto (schedule n) .outside := by
          rw [next, Barrier.step, here]
          exact if_neg (not_not.mpr seen)
        rw [entered_goto (p := .outside) (by rw [here]; decide) (by rw [moved]), moved]
        exact ih.spinning here seen
      · have stays : barrierRun schedule (n + 1) = barrierRun schedule n := by
          rw [next, Barrier.step, here]
          exact if_pos seen
        have calls : (fun t => entered schedule t (n + 1)) = fun t => entered schedule t n := by
          funext t
          rw [entered, stays]
          cases (barrierRun schedule n).inside t <;> rfl
        rw [calls, stays]
        exact ih

/-- The calls of a thread against the round. -/
theorem calls_bounds (schedule : Nat → Fin ncores) (n : Nat) (t : Fin ncores) :
    releases schedule n ≤ entered schedule t n ∧
      entered schedule t n ≤ releases schedule n + 1 ∧
      left schedule t n ≤ releases schedule n := by
  have place := (barrierRun_inv schedule n).place t
  cases here : ((barrierRun schedule n).threads t).point with
  | outside =>
    have account := entered_outside here
    rw [here] at place
    change entered schedule t n = _ at place
    omega
  | adding | clearing | releasing =>
    have account : entered schedule t n = left schedule t n + 1 :=
      entered_inside (by rw [here]; decide)
    rw [here] at place
    change entered schedule t n = _ at place
    omega
  | spinning =>
    have account : entered schedule t n = left schedule t n + 1 :=
      entered_inside (by rw [here]; decide)
    rw [here] at place
    change entered schedule t n = _ ∨ entered schedule t n = _ at place
    omega

theorem count_le (schedule : Nat → Fin ncores) (n : Nat) :
    (barrierRun schedule n).count ≤ ncores := by
  have inv := barrierRun_inv schedule n
  by_cases closing : ∃ t, ((barrierRun schedule n).threads t).point.closing = true
  · obtain ⟨t, closes⟩ := closing
    cases here : ((barrierRun schedule n).threads t).point with
    | clearing => exact Nat.le_of_eq (inv.full t here)
    | releasing =>
      rw [inv.cleared t here]
      exact Nat.zero_le _
    | outside | adding | spinning =>
      rw [here] at closes
      cases closes
  · refine Nat.le_of_lt (inv.counted (fun t => ?_)).2
    exact Bool.eq_false_iff.mpr (fun closes => closing ⟨t, closes⟩)

/-- In any interleaving of any number of threads: no thread returns from its `k`-th call
before every thread has begun its own `k`-th call, no thread is more than one call ahead of
another, and `count` does not pass the number of threads. -/
theorem barrier_safe (schedule : Nat → Fin ncores) (n : Nat) :
    (∀ t u, left schedule t n ≤ entered schedule u n) ∧
      (∀ t u, entered schedule t n ≤ entered schedule u n + 1) ∧
      (barrierRun schedule n).count ≤ ncores := by
  refine ⟨fun t u => ?_, fun t u => ?_, count_le schedule n⟩
  · obtain ⟨-, -, mine⟩ := calls_bounds schedule n t
    obtain ⟨others, -, -⟩ := calls_bounds schedule n u
    exact Nat.le_trans mine others
  · obtain ⟨-, mine, -⟩ := calls_bounds schedule n t
    obtain ⟨others, -, -⟩ := calls_bounds schedule n u
    omega

end Safety

end RiscvLab.Runtime
