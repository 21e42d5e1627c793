import Mathlib.Data.BitVec

/-!
# Blocks of a memory

A memory is a function of the address. A block is a run of addresses from some start on,
which may go past the highest address. The facts below are about storing a block, about
copying a block from its low end in units that are read whole before they are written, and
about loops that move a pointer through a block.
-/
namespace RiscvLab.Lib.BlockCopy

variable {w : Nat} {α : Type*}

section Offsets

/-- How far an address lies behind another one. -/
def offset (a start : BitVec w) : Nat := (a - start).toNat

theorem offset_lt (a start : BitVec w) : offset a start < 2 ^ w := (a - start).isLt

theorem offset_self_add (start : BitVec w) {k : Nat} (below : k < 2 ^ w) :
    offset (start + BitVec.ofNat w k) start = k := by
  rw [offset, BitVec.add_comm, BitVec.add_sub_cancel, BitVec.toNat_ofNat, Nat.mod_eq_of_lt below]

theorem add_offset (a start : BitVec w) : start + BitVec.ofNat w (offset a start) = a := by
  rw [offset, BitVec.ofNat_toNat, BitVec.setWidth_eq, BitVec.add_comm, BitVec.sub_add_cancel]

/-- Offsets from an address `m` further on. -/
theorem offset_add (a start : BitVec w) {m : Nat} (fits : m ≤ 2 ^ w) :
    offset a (start + BitVec.ofNat w m) =
      if m ≤ offset a start then offset a start - m else offset a start + 2 ^ w - m := by
  have bound := offset_lt a start
  have moved : a - (start + BitVec.ofNat w m) = a - start - BitVec.ofNat w m :=
    (BitVec.sub_sub a start _).symm
  have value : offset a (start + BitVec.ofNat w m) =
      (2 ^ w - m % 2 ^ w + offset a start) % 2 ^ w := by
    rw [offset, moved, BitVec.toNat_sub, BitVec.toNat_ofNat]
    rfl
  rw [value]
  generalize offset a start = d at bound ⊢
  rcases Nat.lt_or_eq_of_le fits with less | rfl
  · rw [Nat.mod_eq_of_lt less]
    split
    · rw [show 2 ^ w - m + d = d - m + 2 ^ w by omega, Nat.add_mod_right,
        Nat.mod_eq_of_lt (by omega)]
    · rw [show 2 ^ w - m + d = d + 2 ^ w - m by omega, Nat.mod_eq_of_lt (by omega)]
  · rw [if_neg (by omega), Nat.mod_self, Nat.sub_zero, Nat.add_mod_left, Nat.mod_eq_of_lt bound,
      Nat.add_sub_cancel]

end Offsets

section Store

/-- The memory with `count` places from `start` on replaced. -/
def store (mem : BitVec w → α) (start : BitVec w) (count : Nat) (values : Nat → α) :
    BitVec w → α := fun a =>
  if offset a start < count then values (offset a start) else mem a

variable {mem : BitVec w → α} {start : BitVec w} {values values' : Nat → α} {count m n : Nat}

theorem store_zero : store mem start 0 values = mem := funext fun _ => if_neg (Nat.not_lt_zero _)

theorem store_congr (same : ∀ k < count, values k = values' k) :
    store mem start count values = store mem start count values' := by
  funext a
  unfold store
  split
  next inside => exact same _ inside
  next => rfl

/-- What is stored behind a stored block makes it longer. -/
theorem store_append (fits : m + n ≤ 2 ^ w) :
    store (store mem start m values) (start + BitVec.ofNat w m) n (fun k => values (m + k)) =
      store mem start (m + n) values := by
  funext a
  have bound := offset_lt a start
  unfold store
  rw [offset_add a start (Nat.le_trans (Nat.le_add_right m n) fits)]
  by_cases first : m ≤ offset a start
  · have whole : m + (offset a start - m) = offset a start := Nat.add_sub_cancel' first
    rw [if_pos first, if_neg (Nat.not_lt.mpr first)]
    dsimp only
    rw [whole]
    exact if_congr (by omega) rfl rfl
  · rw [if_neg first, if_neg (by omega), if_pos (by omega), if_pos (by omega)]

theorem store_at {k : Nat} (inside : k < count) (below : k < 2 ^ w) :
    store mem start count values (start + BitVec.ofNat w k) = values k := by
  unfold store
  rw [offset_self_add start below, if_pos inside]

theorem store_outside {a : BitVec w} (outside : count ≤ offset a start) :
    store mem start count values a = mem a := if_neg (Nat.not_lt.mpr outside)

end Store

section Copy

/-- A unit is read whole before it is written. -/
def move (mem : BitVec w → α) (dest src : BitVec w) (size : Nat) : BitVec w → α :=
  store mem dest size (fun k => mem (src + BitVec.ofNat w k))

/-- What a copy from the low end leaves. If `dest` lies inside of the source, what has been
written is read again later: the places between `src` and `dest` are repeated. -/
def copied (mem : BitVec w → α) (dest src : BitVec w) (count : Nat) : BitVec w → α :=
  store mem dest count (fun k => mem (src + BitVec.ofNat w (k % offset dest src)))

variable {mem : BitVec w → α} {dest src : BitVec w} {count size : Nat}

/-- A place at which the copy reads. It lies behind the block written so far, or it has been
written from a place `offset dest src` before it. -/
theorem copied_read {j : Nat} (below : count + j < 2 ^ w)
    (unit : offset dest src = 0 ∨ j < offset dest src) :
    copied mem dest src count (src + BitVec.ofNat w (count + j)) =
      mem (src + BitVec.ofNat w ((count + j) % offset dest src)) := by
  have bound := offset_lt dest src
  have place : offset (src + BitVec.ofNat w (count + j)) dest =
      if offset dest src ≤ count + j then count + j - offset dest src
      else count + j + 2 ^ w - offset dest src := by
    have read := offset_add (src + BitVec.ofNat w (count + j)) src (Nat.le_of_lt bound)
    rw [add_offset, offset_self_add src below] at read
    exact read
  unfold copied
  by_cases written : offset dest src ≠ 0 ∧ offset dest src ≤ count + j
  · obtain ⟨some_gap, reached⟩ := written
    have inside : offset (src + BitVec.ofNat w (count + j)) dest < count := by
      rw [place, if_pos reached]
      omega
    rw [store, if_pos inside, place, if_pos reached, ← Nat.mod_eq_sub_mod reached]
  · have behind : count ≤ offset (src + BitVec.ofNat w (count + j)) dest := by
      rw [place]
      split <;> omega
    have first : (count + j) % offset dest src = count + j := by
      by_cases none : offset dest src = 0
      · rw [none, Nat.mod_zero]
      · exact Nat.mod_eq_of_lt (by omega)
    rw [store_outside behind, first]

/-- One more unit. A unit must not overlap its own copy. -/
theorem move_copied (fits : count + size ≤ 2 ^ w)
    (unit : offset dest src = 0 ∨ size ≤ offset dest src) :
    move (copied mem dest src count) (dest + BitVec.ofNat w count) (src + BitVec.ofNat w count)
      size = copied mem dest src (count + size) := by
  have reads : ∀ k < size, copied mem dest src count
      (src + BitVec.ofNat w count + BitVec.ofNat w k) =
        mem (src + BitVec.ofNat w ((count + k) % offset dest src)) := by
    intro k inside
    rw [BitVec.add_assoc, ← BitVec.ofNat_add]
    exact copied_read (by omega) (by omega)
  rw [move, store_congr reads, copied, copied]
  exact store_append fits

theorem copied_zero : copied mem dest src 0 = mem := store_zero

/-- Unless `dest` lies inside of the source, the source is copied as it was. -/
theorem copied_apart (apart : count ≤ offset dest src) :
    copied mem dest src count = move mem dest src count :=
  store_congr fun k inside => by rw [Nat.mod_eq_of_lt (Nat.lt_of_lt_of_le inside apart)]

end Copy

section Loop

variable {σ : Type*}

/-- `while (d < limit)` with a pointer that moves on by `size`, in at most `rounds` rounds. -/
def pointerLoop (size : Nat) (limit : BitVec w) (body : σ → BitVec w → σ) :
    Nat → σ → BitVec w → Option σ
  | 0, _, _ => none
  | rounds + 1, s, d =>
    if d < limit then pointerLoop size limit body rounds (body s d) (d + BitVec.ofNat w size)
    else some s

variable {size n : Nat} {start limit : BitVec w} {body : σ → BitVec w → σ} {state : Nat → σ}

/-- The rule of the loop: `state k` is what `k` rounds leave. -/
theorem pointerLoop_run {rounds : Nat} (positive : 0 < size)
    (inside : start.toNat + size * n < 2 ^ w)
    (round : ∀ k < n, body (state k) (start + BitVec.ofNat w (size * k)) = state (k + 1))
    (enough : n < rounds) :
    pointerLoop size (start + BitVec.ofNat w (size * n)) body rounds (state 0) start =
      some (state n) := by
  have place : ∀ k ≤ n, (start + BitVec.ofNat w (size * k)).toNat = start.toNat + size * k := by
    intro k within
    have smaller := Nat.mul_le_mul_left size within
    rw [BitVec.toNat_add, BitVec.toNat_ofNat, Nat.add_mod_mod, Nat.mod_eq_of_lt (by omega)]
  -- after `k` rounds, with `left` rounds to come
  have rest : ∀ left k rounds, k + left = n → left < rounds →
      pointerLoop size (start + BitVec.ofNat w (size * n)) body rounds (state k)
        (start + BitVec.ofNat w (size * k)) = some (state n) := by
    intro left
    induction left with
    | zero =>
      rintro k rounds rfl some_round
      obtain ⟨rounds, rfl⟩ := Nat.exists_eq_add_one.mpr some_round
      rw [Nat.add_zero, pointerLoop, if_neg (BitVec.lt_irrefl _)]
    | succ left ih =>
      intro k rounds all some_round
      obtain ⟨rounds, rfl⟩ := Nat.exists_eq_add_one.mpr (Nat.zero_lt_of_lt some_round)
      have before : start + BitVec.ofNat w (size * k) < start + BitVec.ofNat w (size * n) := by
        have further := Nat.mul_lt_mul_of_pos_left (show k < n by omega) positive
        rw [BitVec.lt_def, place k (by omega), place n (Nat.le_refl n)]
        omega
      have next : start + BitVec.ofNat w (size * k) + BitVec.ofNat w size =
          start + BitVec.ofNat w (size * (k + 1)) := by
        rw [BitVec.add_assoc, ← BitVec.ofNat_add, Nat.mul_succ]
      rw [pointerLoop, if_pos before, round k (by omega), next]
      exact ih (k + 1) rounds (by omega) (by omega)
  have all := rest n 0 rounds (Nat.zero_add n) enough
  rwa [Nat.mul_zero, BitVec.add_zero] at all

/-- A pointer that is not below the limit stays where it is. -/
theorem pointerLoop_none {rounds : Nat} {s : σ} {d : BitVec w} (done : ¬ d < limit)
    (enough : 0 < rounds) : pointerLoop size limit body rounds s d = some s := by
  obtain ⟨rounds, rfl⟩ := Nat.exists_eq_add_one.mpr enough
  rw [pointerLoop, if_neg done]

end Loop

end RiscvLab.Lib.BlockCopy
