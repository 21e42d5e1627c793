import RiscvLab.Runtime.Memory

/-!
# Strings in memory

`strlen`, `strcmp` and `strcpy` of lab1/common/syscalls.c. Their loops run until they read the
zero that ends a string, for as long as that takes: the functions are given a number of rounds,
and return nothing if it is not enough.
-/
namespace RiscvLab.Runtime
open RiscvLab.Lib.BlockCopy

section Functions

variable (mem : Memory)

def strlenLoop : Nat → Word64 → Option Word64
  | 0, _ => none
  | rounds + 1, p => if mem p ≠ 0 then strlenLoop rounds (p + 1) else some p

def strlen (rounds : Nat) (s : Word64) : Option Word64 :=
  (strlenLoop mem rounds s).map fun p => p - s

def strcmp : Nat → Word64 → Word64 → Option Int
  | 0, _, _ => none
  | rounds + 1, s1, s2 =>
    let c1 := mem s1
    let c2 := mem s2
    if c1 ≠ 0 ∧ c1 = c2 then strcmp rounds (s1 + 1) (s2 + 1)
    else some ((c1.toNat : Int) - c2.toNat)

/-- `while ((*d++ = *src++));` -/
def strcpyLoop : Nat → Memory → Word64 → Word64 → Option Memory
  | 0, _, _, _ => none
  | rounds + 1, mem, d, src =>
    let byte := mem src
    if byte ≠ 0 then strcpyLoop rounds (storeByte mem d byte) (d + 1) (src + 1)
    else some (storeByte mem d byte)

def strcpy (rounds : Nat) (dest src : Word64) : Option (Memory × Word64) :=
  (strcpyLoop rounds mem dest src).map fun mem => (mem, dest)

end Functions

/-- At an address stand the bytes of a string and the zero that ends it. -/
structure HoldsString (mem : Memory) (s : Word64) (l : List (BitVec 8)) : Prop where
  byte : ∀ k (inside : k < l.length), mem (s + BitVec.ofNat 64 k) = l[k]
  nonzero : ∀ b ∈ l, b ≠ 0
  nul : mem (s + BitVec.ofNat 64 l.length) = 0

section Holds

variable {mem : Memory} {s : Word64} {b : BitVec 8} {l : List (BitVec 8)}

theorem HoldsString.nonzero_at (h : HoldsString mem s l) {k : Nat} (inside : k < l.length) :
    mem (s + BitVec.ofNat 64 k) ≠ 0 := by
  rw [h.byte k inside]
  exact h.nonzero _ (List.getElem_mem inside)

/-- No string goes around the address space. -/
theorem HoldsString.short (h : HoldsString mem s l) : l.length < 2 ^ 64 := by
  by_contra long
  have inside : l.length % 2 ^ 64 < l.length := by omega
  have same : BitVec.ofNat 64 (l.length % 2 ^ 64) = BitVec.ofNat 64 l.length := by
    apply BitVec.eq_of_toNat_eq
    rw [BitVec.toNat_ofNat, BitVec.toNat_ofNat, Nat.mod_mod]
  have ending := h.nul
  rw [← same] at ending
  exact h.nonzero_at inside ending

theorem HoldsString.first (h : HoldsString mem s (b :: l)) : mem s = b := by
  have here := h.byte 0 (Nat.zero_lt_succ _)
  rwa [BitVec.add_zero] at here

theorem HoldsString.empty (h : HoldsString mem s []) : mem s = 0 := by
  have here := h.nul
  rwa [List.length_nil, BitVec.add_zero] at here

theorem next_place (s : Word64) (k : Nat) :
    s + 1 + BitVec.ofNat 64 k = s + BitVec.ofNat 64 (k + 1) := by
  rw [BitVec.add_assoc, Nat.add_comm k 1, BitVec.ofNat_add]
  rfl

theorem HoldsString.tail (h : HoldsString mem s (b :: l)) : HoldsString mem (s + 1) l where
  byte k inside := by
    rw [next_place]
    exact h.byte (k + 1) (Nat.succ_lt_succ inside)
  nonzero c inside := h.nonzero c (List.mem_cons_of_mem b inside)
  nul := by
    rw [next_place]
    exact h.nul

end Holds

section Reading

variable {mem : Memory} {s s1 s2 : Word64} {l l1 l2 : List (BitVec 8)} {rounds : Nat}

theorem strlenLoop_eq (h : HoldsString mem s l) (enough : l.length < rounds) :
    strlenLoop mem rounds s = some (s + BitVec.ofNat 64 l.length) := by
  induction l generalizing s rounds with
  | nil =>
    obtain ⟨rounds, rfl⟩ := Nat.exists_eq_add_one.mpr (Nat.zero_lt_of_lt enough)
    rw [strlenLoop, if_neg (not_not.mpr h.empty), List.length_nil, BitVec.add_zero]
  | cons b l ih =>
    obtain ⟨rounds, rfl⟩ := Nat.exists_eq_add_one.mpr (Nat.zero_lt_of_lt enough)
    have some_byte : mem s ≠ 0 := by
      rw [h.first]
      exact h.nonzero b List.mem_cons_self
    rw [strlenLoop, if_pos some_byte, ih h.tail (Nat.lt_of_succ_lt_succ enough), next_place]
    rfl

theorem strlen_eq (h : HoldsString mem s l) (enough : l.length < rounds) :
    strlen mem rounds s = some (BitVec.ofNat 64 l.length) := by
  unfold strlen
  rw [strlenLoop_eq h enough, Option.map_some, BitVec.add_comm, BitVec.add_sub_cancel]

theorem strcmp_next (some_byte : mem s1 ≠ 0) (same : mem s1 = mem s2) :
    strcmp mem (rounds + 1) s1 s2 = strcmp mem rounds (s1 + 1) (s2 + 1) :=
  if_pos ⟨some_byte, same⟩

theorem strcmp_last (last : ¬ (mem s1 ≠ 0 ∧ mem s1 = mem s2)) :
    strcmp mem (rounds + 1) s1 s2 = some (((mem s1).toNat : Int) - (mem s2).toNat) :=
  if_neg last

/-- Two different bytes decide the order of what begins with them. -/
theorem order_of_ne {b1 b2 : BitVec 8} (different : b1 ≠ b2) (l1 l2 : List (BitVec 8)) :
    ((b1.toNat : Int) - b2.toNat < 0 ↔ b1 :: l1 < b2 :: l2) ∧
      ((b1.toNat : Int) - b2.toNat = 0 ↔ b1 :: l1 = b2 :: l2) ∧
      (0 < (b1.toNat : Int) - b2.toNat ↔ b2 :: l2 < b1 :: l1) := by
  have values : b1.toNat ≠ b2.toNat := fun same => different (BitVec.eq_of_toNat_eq same)
  have different' : b2 ≠ b1 := different.symm
  rw [List.cons_lt_cons_iff, List.cons_lt_cons_iff, List.cons.injEq, BitVec.lt_def, BitVec.lt_def]
  simp only [different, different', false_and, or_false]
  exact ⟨by omega, iff_of_false (by omega) id, by omega⟩

/-- `strcmp` orders strings as lists of unsigned bytes are ordered. -/
theorem strcmp_order (h1 : HoldsString mem s1 l1) (h2 : HoldsString mem s2 l2)
    (enough : min l1.length l2.length < rounds) :
    ∃ v, strcmp mem rounds s1 s2 = some v ∧ (v < 0 ↔ l1 < l2) ∧ (v = 0 ↔ l1 = l2) ∧
      (0 < v ↔ l2 < l1) := by
  obtain ⟨rounds, rfl⟩ := Nat.exists_eq_add_one.mpr (Nat.zero_lt_of_lt enough)
  induction l1 generalizing l2 s1 s2 rounds with
  | nil =>
    refine ⟨_, strcmp_last fun more => more.1 h1.empty, ?_⟩
    rw [h1.empty]
    cases l2 with
    | nil =>
      rw [h2.empty]
      decide
    | cons b2 l2 =>
      have some_byte : 0 < b2.toNat :=
        (BitVec.pos_iff_ne_zero b2).mpr (h2.nonzero b2 List.mem_cons_self)
      rw [h2.first, iff_true_right (List.nil_lt_cons b2 l2),
        iff_false_right (List.cons_ne_nil b2 l2).symm, iff_false_right (List.not_lt_nil _)]
      change ((0 : Int) - _ < 0) ∧ ¬ ((0 : Int) - _ = 0) ∧ ¬ (0 < (0 : Int) - _)
      omega
  | cons b1 l1 ih =>
    have some_byte : 0 < b1.toNat :=
      (BitVec.pos_iff_ne_zero b1).mpr (h1.nonzero b1 List.mem_cons_self)
    cases l2 with
    | nil =>
      refine ⟨_, strcmp_last fun more => more.1 (more.2.trans h2.empty), ?_⟩
      rw [h1.first, h2.empty, iff_true_right (List.nil_lt_cons b1 l1),
        iff_false_right (List.cons_ne_nil b1 l1), iff_false_right (List.not_lt_nil _)]
      change ¬ (_ - (0 : Int) < 0) ∧ ¬ (_ - (0 : Int) = 0) ∧ (0 < _ - (0 : Int))
      omega
    | cons b2 l2 =>
      by_cases same : b1 = b2
      · subst same
        have heads : mem s1 = mem s2 := h1.first.trans h2.first.symm
        have nonzero : mem s1 ≠ 0 := by
          rw [h1.first]
          exact h1.nonzero b1 List.mem_cons_self
        rw [List.length_cons, List.length_cons] at enough
        obtain ⟨rounds, rfl⟩ : ∃ more, rounds = more + 1 := Nat.exists_eq_add_one.mpr (by omega)
        obtain ⟨v, result, below, equal, above⟩ := ih h1.tail h2.tail rounds (by omega)
        rw [strcmp_next nonzero heads, List.cons_lt_cons_self, List.cons_lt_cons_self,
          List.cons.injEq]
        exact ⟨v, result, below, equal.trans ⟨fun rest => ⟨rfl, rest⟩, And.right⟩, above⟩
      · have heads : mem s1 ≠ mem s2 := by rwa [h1.first, h2.first]
        refine ⟨_, strcmp_last fun more => heads more.2, ?_⟩
        rw [h1.first, h2.first]
        exact order_of_ne same l1 l2

end Reading

section Copying

variable {mem : Memory} {dest src d s : Word64} {l : List (BitVec 8)} {gap rounds : Nat}

/-- Inside of the string the zero is overwritten before it is read. -/
theorem strcpyLoop_never (some_gap : 0 < gap) (behind : d = s + BitVec.ofNat 64 gap)
    (nonzero : ∀ k < gap, mem (s + BitVec.ofNat 64 k) ≠ 0) (rounds : Nat) :
    strcpyLoop rounds mem d s = none := by
  induction rounds generalizing mem d s with
  | zero => rfl
  | succ rounds ih =>
    have here : mem s ≠ 0 := by
      have first := nonzero 0 some_gap
      rwa [BitVec.add_zero] at first
    rw [strcpyLoop, if_pos here]
    apply ih
    · rw [behind]
      rw [BitVec.add_assoc, BitVec.add_comm _ 1, ← BitVec.add_assoc]
    · intro k inside
      rw [next_place]
      unfold storeByte store
      split
      · exact here
      · next outside =>
        have before : k + 1 < gap := by
          by_contra reached
          obtain rfl : k + 1 = gap := by omega
          refine outside ?_
          rw [← behind, offset, BitVec.sub_self]
          decide
        exact nonzero (k + 1) before

/-- Each round but the last one copies a byte that is not zero. -/
theorem strcpyLoop_run (h : HoldsString mem src l)
    (apart : offset dest src = 0 ∨ l.length < offset dest src) (enough : l.length < rounds) :
    strcpyLoop rounds mem dest src = some (copied mem dest src (l.length + 1)) := by
  have short := h.short
  have read : ∀ k ≤ l.length, copied mem dest src k (src + BitVec.ofNat 64 k) =
      mem (src + BitVec.ofNat 64 k) := by
    intro k within
    have place : k % offset dest src = k := by
      rcases apart with none | far
      · rw [none, Nat.mod_zero]
      · exact Nat.mod_eq_of_lt (by omega)
    have original : copied mem dest src k (src + BitVec.ofNat 64 (k + 0)) = _ :=
      copied_read (by omega) (by omega)
    rwa [Nat.add_zero, place] at original
  have step : ∀ k ≤ l.length, storeByte (copied mem dest src k) (dest + BitVec.ofNat 64 k)
      (copied mem dest src k (src + BitVec.ofNat 64 k)) = copied mem dest src (k + 1) := by
    intro k within
    rw [storeByte_load]
    exact move_copied (by omega) (by omega)
  -- after `k` rounds, with `left` bytes of the string to come
  have rest : ∀ left k rounds, k + left = l.length → left < rounds →
      strcpyLoop rounds (copied mem dest src k) (dest + BitVec.ofNat 64 k)
        (src + BitVec.ofNat 64 k) = some (copied mem dest src (l.length + 1)) := by
    intro left
    induction left with
    | zero =>
      intro k rounds all some_round
      obtain rfl : k = l.length := all
      obtain ⟨rounds, rfl⟩ := Nat.exists_eq_add_one.mpr some_round
      have last : copied mem dest src l.length (src + BitVec.ofNat 64 l.length) = 0 :=
        (read _ (Nat.le_refl _)).trans h.nul
      rw [strcpyLoop, if_neg (not_not.mpr last), step _ (Nat.le_refl _)]
    | succ left ih =>
      intro k rounds all some_round
      obtain ⟨rounds, rfl⟩ := Nat.exists_eq_add_one.mpr (Nat.zero_lt_of_lt some_round)
      have some_byte : copied mem dest src k (src + BitVec.ofNat 64 k) ≠ 0 := by
        rw [read k (by omega)]
        exact h.nonzero_at (by omega)
      have next : ∀ a : Word64, a + BitVec.ofNat 64 k + 1 = a + BitVec.ofNat 64 (k + 1) :=
        fun a => by rw [BitVec.add_assoc, BitVec.ofNat_add]; rfl
      rw [strcpyLoop, if_pos some_byte, step k (by omega), next, next]
      exact ih (k + 1) rounds (by omega) (by omega)
  have whole := rest l.length 0 rounds (Nat.zero_add _) enough
  rwa [copied_zero, BitVec.add_zero, BitVec.add_zero] at whole

/-- A string that is copied whole stands at its new place. -/
theorem HoldsString.moved (h : HoldsString mem src l) :
    HoldsString (move mem dest src (l.length + 1)) dest l where
  byte k inside := by
    have short := h.short
    rw [Lib.BlockCopy.move, store_at (by omega) (by omega)]
    exact h.byte k inside
  nonzero := h.nonzero
  nul := by
    have short := h.short
    rw [Lib.BlockCopy.move, store_at (by omega) short]
    exact h.nul

/-- `strcpy` returns unless `dest` lies inside of the string, and the copy is then whole;
otherwise it runs for ever. -/
theorem strcpy_copies (h : HoldsString mem src l) (dest : Word64) :
    (offset dest src = 0 ∨ l.length < offset dest src → ∀ rounds, l.length < rounds →
      ∃ mem', strcpy mem rounds dest src = some (mem', dest) ∧ HoldsString mem' dest l ∧
        ∀ a, l.length < offset a dest → mem' a = mem a) ∧
    (¬ (offset dest src = 0 ∨ l.length < offset dest src) → ∀ rounds,
      strcpy mem rounds dest src = none) := by
  refine ⟨fun apart rounds enough => ?_, fun inside rounds => ?_⟩
  · have whole : copied mem dest src (l.length + 1) = move mem dest src (l.length + 1) := by
      refine store_congr fun k within => ?_
      rcases apart with none | far
      · rw [none, Nat.mod_zero]
      · rw [Nat.mod_eq_of_lt (by omega)]
    refine ⟨move mem dest src (l.length + 1), ?_, h.moved, fun a outside => ?_⟩
    · unfold strcpy
      rw [strcpyLoop_run h apart enough, whole]
      rfl
    · exact store_outside outside
  · unfold strcpy
    rw [strcpyLoop_never (by omega) (add_offset dest src).symm
      (fun k before => h.nonzero_at (by omega))]
    rfl

/-- `ab` at 0x100. -/
def sampleString : Memory := fun a => if a = 0x100 then 97 else if a = 0x101 then 98 else 0

theorem sampleString_holds : HoldsString sampleString 0x100 [97, 98] where
  byte k inside := by
    match k, inside with
    | 0, _ | 1, _ => rfl
  nonzero := by decide
  nul := by decide

/-- Behind the string there is room for its copy; at its zero there is none. -/
theorem strcpy_copies_sample :
    (∃ mem', strcpy sampleString 3 0x103 0x100 = some (mem', 0x103) ∧
      HoldsString mem' 0x103 [97, 98]) ∧ strcpy sampleString 1000 0x102 0x100 = none := by
  have behind := (strcpy_copies sampleString_holds 0x103).1 (by decide) 3 (by decide)
  have overlapping := (strcpy_copies sampleString_holds 0x102).2 (by decide) 1000
  obtain ⟨mem', run, holds, -⟩ := behind
  exact ⟨⟨mem', run, holds⟩, overlapping⟩

/-- The rest of a string comes after the string that begins with `a`. -/
theorem strcmp_order_sample : ∃ v, strcmp sampleString 2 0x100 0x101 = some v ∧ v < 0 := by
  obtain ⟨v, result, below, -⟩ := strcmp_order sampleString_holds sampleString_holds.tail
    (show min [97, 98].length [98].length < 2 by decide)
  exact ⟨v, result, below.mpr (by decide)⟩

end Copying

end RiscvLab.Runtime
