import RiscvLab.Fir.Reference
import RiscvLab.Fir.Termination
import RiscvLab.Lib.FixedPoint
import RiscvLab.Lib.WordArray

/-!
# The assembly filter computes the C filter

The sums of the assembly have 64 bits and their products lose the sign, but what is
stored depends on the bits 31 to 62 of each product only.
-/
namespace RiscvLab.Fir
open RiscvLab.Lib.Assembly RiscvLab.Lib.ByteMemory RiscvLab.Lib.FixedPoint
open RiscvLab.Lib.WordArray

section Sums

variable (mem : BitVec 64 → BitVec 8)

/-- The lower half of a shifted product does not tell the two shifts apart. -/
theorem setWidth_tapProduct (c x : BitVec 64) :
    (tapProduct mem c x).setWidth 32 = mulQ31 (loadWord mem c) (loadWord mem x) := by
  unfold tapProduct mulQ31 longProduct
  rw [BitVec.mul_comm, setWidth_ushiftRight (by decide)]

/-- The last product of a sum instead of its first. -/
theorem tapSum_succ (c x : BitVec 64) (k : Nat) : tapSum mem c x (k + 1) =
    tapSum mem c x k + tapProduct mem (element c k) (element x (-k)) := by
  induction k generalizing c x with
  | zero =>
    have single : tapSum mem c x (0 + 1) = tapProduct mem c x := BitVec.add_zero _
    have empty : tapSum mem c x 0 = 0 := rfl
    rw [single, empty, Int.natCast_zero, Int.neg_zero, element_zero, element_zero]
    exact (BitVec.zero_add _).symm
  | succ k ih =>
    rw [tapSum, ih, element_next, element_previous, ← BitVec.add_assoc]
    rfl

/-- The stored half of a sum is the sum that C computes. -/
theorem setWidth_tapSum (c x : BitVec 64) (m : Int) (j k : Nat) :
    (tapSum mem c (element x (j + (m - 1))) k).setWidth 32 =
      partialSum (words mem x) (words mem c) m j k := by
  induction k with
  | zero => rfl
  | succ k ih =>
    have sample : element (element x (j + (m - 1))) (-k) = element x (j - k + (m - 1)) := by
      rw [element_element]
      congr 1
      omega
    rw [tapSum_succ, BitVec.setWidth_add _ _ (by decide), ih, setWidth_tapProduct, sample]
    rfl

end Sums

section Rows

variable (c x y : BitVec 64) (mem : BitVec 64 → BitVec 8) (m : Nat)

/-- The last output instead of the first. -/
theorem rowsMem_succ (k : Nat) : rowsMem c m mem y x (k + 1) =
    storeWord (rowsMem c m mem y x k) (element y k)
      ((tapSum (rowsMem c m mem y x k) c (element x k) m).setWidth 32) := by
  induction k generalizing mem y x with
  | zero => rw [Int.natCast_zero, element_zero, element_zero]; rfl
  | succ k ih =>
    rw [rowsMem, ih, element_next, element_next]
    rfl

variable {c x y mem m} {k n : Nat} {byte : BitVec 64}

/-- Nothing but the outputs is written. -/
theorem rowsMem_outside (outside : ¬ InArray y k byte) : rowsMem c m mem y x k byte = mem byte := by
  induction k with
  | zero => rfl
  | succ k ih =>
    rw [rowsMem_succ, store_element_outside (Nat.lt_succ_self k) outside]
    exact ih fun inside => outside (inside.mono (Nat.le_succ k))

/-- An array apart from the outputs keeps its elements. -/
theorem words_rowsMem_apart {base : BitVec 64} {count i : Nat}
    (apart : ∀ byte, InArray y k byte → ¬ InArray base count byte) (below : i < count) :
    words (rowsMem c m mem y x k) base i = words mem base i :=
  loadWord_congr fun byte near =>
    rowsMem_outside fun inside => apart byte inside (inArray_of_near below near)

/-- Each output is the one that C computes from the arrays at the call. -/
theorem words_rowsMem (fits : 4 * k ≤ 2 ^ 64) (rows : k + m ≤ n + 1)
    (apartX : ∀ byte, InArray y k byte → ¬ InArray x n byte)
    (apartC : ∀ byte, InArray y k byte → ¬ InArray c m byte) {i : Nat} (below : i < k) :
    words (rowsMem c m mem y (element x (m - 1)) k) y i =
      partialSum (words mem x) (words mem c) m i m := by
  induction k with
  | zero => exact absurd below (Nat.not_lt_zero i)
  | succ k ih =>
    have shorter : ∀ byte, InArray y k byte → InArray y (k + 1) byte :=
      fun _ inside => inside.mono (Nat.le_succ k)
    rw [rowsMem_succ]
    by_cases last : i = k
    · subst last
      have pointer : element (element x (m - 1)) i = element x (i + (m - 1)) := by
        rw [element_element, Int.add_comm]
      rw [words_store_self (by decide), pointer, setWidth_tapSum]
      have samples : ∀ a < n, words (rowsMem c m mem y (element x (m - 1)) i) x a =
          words mem x a := fun a inside =>
        words_rowsMem_apart (fun byte h => apartX byte (shorter byte h)) inside
      have coefficients : ∀ a < m, words (rowsMem c m mem y (element x (m - 1)) i) c a =
          words mem c a := fun a inside =>
        words_rowsMem_apart (fun byte h => apartC byte (shorter byte h)) inside
      exact partialSum_congr _ _ _ samples coefficients (by omega) le_rfl
    · have earlier : i < k := by omega
      rw [words_store_of_ne fits (Nat.lt_succ_self k) below (Ne.symm last)]
      exact ih (by omega) (by omega) (fun byte h => apartX byte (shorter byte h))
        (fun byte h => apartC byte (shorter byte h)) earlier

end Rows

section Accesses

/-- Reads lie on elements of the inputs, writes on elements of the output. -/
def InBounds (c x y : BitVec 64) (m n outputs : Nat) : Access 64 → Prop
  | .read address => (∃ i < m, address = element c i) ∨ ∃ i < n, address = element x i
  | .write address => ∃ j < outputs, address = element y j

theorem mem_tapReads {c x : BitVec 64} {k : Nat} {access : Access 64}
    (h : access ∈ tapReads c x k) :
    ∃ i < k, access = .read (element c i) ∨ access = .read (element x (-i)) := by
  induction k generalizing c x with
  | zero => cases h
  | succ k ih =>
    rw [tapReads, List.mem_append] at h
    rcases h with first | rest
    · refine ⟨0, Nat.zero_lt_succ k, ?_⟩
      rw [Int.natCast_zero, Int.neg_zero, element_zero, element_zero]
      simpa using first
    · obtain ⟨i, below, which⟩ := ih rest
      refine ⟨i + 1, Nat.succ_lt_succ below, ?_⟩
      rwa [element_next, element_previous] at which

theorem mem_rowsAccesses {c x y : BitVec 64} {m k : Nat} {access : Access 64}
    (h : access ∈ rowsAccesses c m y x k) :
    ∃ j < k, access = .write (element y j) ∨ access ∈ tapReads c (element x j) m := by
  induction k generalizing x y with
  | zero => cases h
  | succ k ih =>
    rw [rowsAccesses, List.mem_append, List.mem_append] at h
    rcases h with first | rest
    · refine ⟨0, Nat.zero_lt_succ k, ?_⟩
      rw [Int.natCast_zero, element_zero, element_zero]
      exact first.symm.imp_left List.mem_singleton.mp
    · obtain ⟨j, below, which⟩ := ih rest
      refine ⟨j + 1, Nat.succ_lt_succ below, ?_⟩
      rwa [element_next, element_next] at which

theorem inBounds_rows {c x y : BitVec 64} {m n k : Nat} (rows : k + m ≤ n + 1)
    {access : Access 64} (h : access ∈ rowsAccesses c m y (element x (m - 1)) k) :
    InBounds c x y m n k access := by
  obtain ⟨j, below, rfl | read⟩ := mem_rowsAccesses h
  · exact ⟨j, below, rfl⟩
  · obtain ⟨i, inside, rfl | rfl⟩ := mem_tapReads read
    · exact .inl ⟨i, inside, rfl⟩
    · refine .inr ⟨j + (m - 1) - i, by omega, ?_⟩
      rw [element_element, element_element]
      congr 1
      omega

end Accesses

section Calls

/-- An array whose elements all lie in the non-negative half of the addresses. -/
def NonNegative (base : BitVec 64) (count : Nat) : Prop :=
  base.toNat < 2 ^ 63 ∧ base.toNat + 4 * count ≤ 2 ^ 63

instance (base : BitVec 64) (count : Nat) : Decidable (NonNegative base count) :=
  inferInstanceAs (Decidable (base.toNat < 2 ^ 63 ∧ base.toNat + 4 * count ≤ 2 ^ 63))

/-- The arguments of a call with `n` samples and `m` coefficients. -/
structure Arguments (regs : Reg → BitVec 64) (n m : Nat) : Prop where
  samples : regs .a3 = BitVec.ofNat 64 n
  coefficients : regs .a4 = BitVec.ofNat 64 m
  x : NonNegative (regs .a0) n
  c : NonNegative (regs .a1) m
  y : NonNegative (regs .a2) (n + 1 - m)
  apartX : ∀ byte, InArray (regs .a2) (n + 1 - m) byte → ¬ InArray (regs .a0) n byte
  apartC : ∀ byte, InArray (regs .a2) (n + 1 - m) byte → ¬ InArray (regs .a1) m byte

variable {regs : Reg → BitVec 64} (mem : BitVec 64 → BitVec 8) {n m : Nat}

/-- The first output has its newest sample at index `m - 1`. -/
theorem newest_sample (coefficients : regs .a4 = BitVec.ofNat 64 m) :
    (regs .a4 - 1) * 4 + regs .a0 = element (regs .a0) (m - 1) := by
  have offset : BitVec.ofInt 64 (4 * (m - 1)) = (BitVec.ofNat 64 m - 1) * 4 := by
    have four : BitVec.ofInt 64 4 = 4 := rfl
    have minusOne : BitVec.ofInt 64 (-1) = -1 := rfl
    rw [BitVec.ofInt_mul, BitVec.mul_comm, Int.sub_eq_add_neg, BitVec.ofInt_add,
      BitVec.ofInt_natCast, four, minusOne, BitVec.sub_eq_add_neg]
  rw [element, offset, coefficients, BitVec.add_comm]

/-- With outputs to compute the loops run as often as they should. -/
theorem returns_rows (range : InRange regs n m) (some : 1 ≤ m) (le : m ≤ n) :
    ∃ t, Returns firProgram (call regs mem)
        (rowsAccesses (regs .a1) m (regs .a2) (element (regs .a0) (m - 1)) (n + 1 - m)) t ∧
      t.mem = rowsMem (regs .a1) m mem (regs .a2) (element (regs .a0) (m - 1)) (n + 1 - m) := by
  obtain ⟨k, rfl⟩ : ∃ k, m = k + 1 := ⟨m - 1, by omega⟩
  obtain ⟨t, start, pc, mem', a1, a2, t0, t1, t2⟩ := enter_loops (s := call regs mem) rfl
  have inner : Climbs (t.get .t1) (t.get .a1) (k + 1) := by
    rw [a1, t1]
    exact climbs_of_toInt _ range.toInt_filter_end
  have outer : Climbs (t.get .t0) (t.get .a2) (n + 1 - (k + 1)) := by
    rw [a2, t0]
    exact climbs_of_toInt _ (range.toInt_output_end le)
  obtain ⟨u, ⟨run, ended⟩, final⟩ := outer_loop _ pc inner.1 inner.2 outer
  rw [a1, a2, t2.trans (newest_sample range.coefficients)] at run final
  rw [mem'] at final
  exact ⟨u, ⟨start.trans run, ended⟩, final⟩

/-- Without an output to compute the program returns at once. -/
theorem returns_nothing (left : OutputLeft regs = false) :
    ∃ t, Returns firProgram (call regs mem) [] t ∧ t.mem = mem := by
  obtain ⟨t, run, pc, mem', -, a2, t0, -⟩ := enter_loops (s := call regs mem) rfl
  have done : (t.get .a2).slt (t.get .t0) = false := by
    rw [a2, t0]
    exact left
  obtain ⟨back, ended⟩ := leave pc done
  exact ⟨_, ⟨run.trans back, ended⟩, mem'⟩

/-- With arrays whose ends are non-negative addresses too, the call returns with the outputs
of the C function, has written nothing else and has read nothing but samples and
coefficients. -/
theorem fir_refines (arguments : Arguments regs n m) (some : 1 ≤ m)
    (endC : m ≤ n → (regs .a1).toNat + 4 * m < 2 ^ 63)
    (endY : m ≤ n → (regs .a2).toNat + 4 * (n + 1 - m) < 2 ^ 63) :
    ∃ accesses t, Returns firProgram (call regs mem) accesses t ∧
      (∀ j : Int, 0 ≤ j → j ≤ n - m → words t.mem (regs .a2) j =
        fir (words mem (regs .a0)) (words mem (regs .a1)) (words mem (regs .a2)) n m j) ∧
      (∀ byte, ¬ InArray (regs .a2) (n + 1 - m) byte → t.mem byte = mem byte) ∧
      ∀ access ∈ accesses, InBounds (regs .a1) (regs .a0) (regs .a2) m n (n + 1 - m) access := by
  obtain ⟨samples, coefficients, x, c, y, apartX, apartC⟩ := arguments
  by_cases le : m ≤ n
  · have range : InRange regs n m := ⟨samples, coefficients, endC le, endY le⟩
    obtain ⟨t, returns, final⟩ := returns_rows mem range some le
    refine ⟨_, t, returns, ?_, ?_, fun access h => inBounds_rows (by omega) h⟩
    · intro j low high
      obtain ⟨i, rfl⟩ := Int.eq_ofNat_of_zero_le low
      have fits : 4 * (n + 1 - m) ≤ 2 ^ 64 := by
        have bound := range.endY
        omega
      rw [final, words_rowsMem fits (by omega) apartX apartC (by omega), fir_apply,
        if_pos ⟨low, high⟩]
      rfl
    · intro byte outside
      rw [final]
      exact rowsMem_outside outside
  · -- nothing to compute
    have none : n + 1 - m = 0 := by omega
    have outputs := toInt_output_end samples coefficients (by have := c.2; omega)
      (by rw [none]; exact y.1)
    have left : OutputLeft regs = false := by
      rw [OutputLeft, BitVec.slt_eq_decide, outputs, toInt_of_lt y.1]
      exact decide_eq_false (by omega)
    obtain ⟨t, returns, same⟩ := returns_nothing mem left
    refine ⟨_, t, returns, ?_, fun byte _ => congrFun same byte, ?_⟩
    · intro j low high
      omega
    · intro access h
      cases h

/-- The lab's lengths, with 0x40404040 in every sample and every coefficient. -/
theorem fir_refines_twenty : ∃ accesses t,
    Returns firProgram (call (exampleArgs 20 4) fun _ => 0x40) accesses t ∧
      words t.mem 12288 16 = 0x81018200 := by
  have arguments : Arguments (exampleArgs 20 4) 20 4 :=
    ⟨rfl, rfl, by decide, by decide, by decide,
      fun _ => apart_of_ordered (by decide) (by decide) (by decide),
      fun _ => apart_of_ordered (by decide) (by decide) (by decide)⟩
  obtain ⟨accesses, t, returns, results, -⟩ := fir_refines (fun _ => 0x40) arguments
    (by decide) (by decide) (by decide)
  exact ⟨accesses, t, returns, (results 16 (by decide) (by decide)).trans (by decide)⟩

/-- One output, in the last four bytes of the non-negative half. -/
def lastAddress : Reg → BitVec 64
  | .a0 => 4096
  | .a1 => 8192
  | .a2 => 0x7FFFFFFFFFFFFFFC
  | .a3 => 1
  | .a4 => 1
  | _ => 0

/-- The end of that output is a negative address, so the loop is left before it begins. -/
theorem fir_refines_not : Arguments lastAddress 1 1 ∧
    ¬ ∃ accesses t, Returns firProgram (call lastAddress fun _ => 0x40) accesses t ∧
      words t.mem (lastAddress .a2) 0 = fir (words (fun _ => 0x40) (lastAddress .a0))
        (words (fun _ => 0x40) (lastAddress .a1))
        (words (fun _ => 0x40) (lastAddress .a2)) 1 1 0 := by
  constructor
  · exact ⟨rfl, rfl, by decide, by decide, by decide,
      fun _ => apart_of_ordered (by decide) (by decide) (by decide),
      fun _ => apart_of_ordered (by decide) (by decide) (by decide)⟩
  · rintro ⟨accesses, t, returns, result⟩
    have left : OutputLeft lastAddress = false := by decide
    obtain ⟨u, returns', same⟩ := returns_nothing (fun _ => 0x40) left
    rw [(returns.unique returns').2, same] at result
    revert result
    decide

end Calls

end RiscvLab.Fir
