import Mathlib.Data.BitVec
import RiscvLab.Lib.Assembly

/-!
# Arrays of words

Elements of four bytes from a base address on, in a byte memory of any width. An array
may lie across the end of the address space.
-/
namespace RiscvLab.Lib.WordArray
open RiscvLab.Lib.Assembly

variable {w : Nat}

/-- The address of an element. -/
def element (base : BitVec w) (i : Int) : BitVec w := base + BitVec.ofInt w (4 * i)

/-- The elements that a memory holds. -/
def words (mem : BitVec w → BitVec 8) (base : BitVec w) (i : Int) : BitVec 32 :=
  loadWord mem (element base i)

/-- A byte of the first `count` elements. -/
def InArray (base : BitVec w) (count : Nat) (byte : BitVec w) : Prop :=
  (byte - base).toNat < 4 * count

instance (base : BitVec w) (count : Nat) (byte : BitVec w) : Decidable (InArray base count byte) :=
  inferInstanceAs (Decidable ((byte - base).toNat < 4 * count))

section Addresses

variable (base : BitVec w) (i : Int)

theorem element_zero : element base 0 = base := by
  simp [element]

theorem element_element (j : Int) : element (element base i) j = element base (i + j) := by
  unfold element
  rw [Int.mul_add, BitVec.ofInt_add, BitVec.add_assoc]

theorem element_one : element base 1 = base + 4 := rfl

theorem element_neg_one : element base (-1) = base - 4 := by
  have back := element_element base (-1) 1
  rw [element_one, Int.add_left_neg, element_zero] at back
  exact (BitVec.sub_eq_iff_eq_add.mpr back.symm).symm

theorem element_next (k : Nat) : element (base + 4) k = element base (k + 1 : Nat) := by
  have index : (1 : Int) + k = (k + 1 : Nat) := by omega
  rw [← element_one, element_element, index]

theorem element_previous (k : Nat) : element (base - 4) (-k) = element base (-(k + 1 : Nat)) := by
  have index : (-1 : Int) + -k = -(k + 1 : Nat) := by omega
  rw [← element_neg_one, element_element, index]

end Addresses

section Bytes

variable {base byte : BitVec w} {count i j : Nat}

theorem InArray.mono (h : InArray base i byte) (le : i ≤ count) : InArray base count byte := by
  unfold InArray at h ⊢
  omega

/-- In an array that ends inside the address space the addresses are ordered. -/
theorem inArray_iff (fits : base.toNat + 4 * count ≤ 2 ^ w) :
    InArray base count byte ↔ base.toNat ≤ byte.toNat ∧ byte.toNat < base.toNat + 4 * count := by
  have first := base.isLt
  have second := byte.isLt
  unfold InArray
  rw [BitVec.toNat_sub]
  by_cases before : base.toNat ≤ byte.toNat
  · have turn : 2 ^ w - base.toNat + byte.toNat = byte.toNat - base.toNat + 2 ^ w := by omega
    rw [turn, Nat.add_mod_right, Nat.mod_eq_of_lt (by omega)]
    omega
  · rw [Nat.mod_eq_of_lt (by omega)]
    omega

/-- Arrays one behind the other do not overlap. -/
theorem apart_of_ordered {other : BitVec w} {length : Nat} (fits : base.toNat + 4 * count ≤ 2 ^ w)
    (fits' : other.toNat + 4 * length ≤ 2 ^ w) (order : base.toNat + 4 * count ≤ other.toNat ∨
      other.toNat + 4 * length ≤ base.toNat) (inside : InArray base count byte) :
    ¬ InArray other length byte := by
  rw [inArray_iff fits] at inside
  rw [inArray_iff fits']
  omega

theorem sub_element_add : byte - element base i + BitVec.ofNat w (4 * i) = byte - base := by
  have offset : BitVec.ofInt w (4 * i) = BitVec.ofNat w (4 * i) := BitVec.ofInt_natCast w (4 * i)
  rw [element, offset]
  grind

/-- The four bytes of an element belong to the array. -/
theorem inArray_of_near (below : i < count) (near : (byte - element base i).toNat < 4) :
    InArray base count byte := by
  have bound : (byte - base).toNat ≤ (byte - element base i).toNat + 4 * i := by
    rw [← sub_element_add (i := i), BitVec.toNat_add, BitVec.toNat_ofNat]
    exact Nat.le_trans (Nat.mod_le _ _) (Nat.add_le_add_left (Nat.mod_le _ _) _)
  unfold InArray
  omega

theorem toNat_sub_of_near (fits : 4 * count ≤ 2 ^ w) (below : i < count)
    (near : (byte - element base i).toNat < 4) :
    (byte - base).toNat = (byte - element base i).toNat + 4 * i := by
  have small : 4 * i < 2 ^ w := by omega
  rw [← sub_element_add (i := i), BitVec.toNat_add, BitVec.toNat_ofNat, Nat.mod_eq_of_lt small,
    Nat.mod_eq_of_lt (by omega)]

/-- Two elements do not share a byte. -/
theorem apart_of_ne (fits : 4 * count ≤ 2 ^ w) (first : i < count) (second : j < count)
    (ne : i ≠ j) (near : (byte - element base i).toNat < 4) :
    ¬ (byte - element base j).toNat < 4 := by
  intro near'
  have one := toNat_sub_of_near fits first near
  have two := toNat_sub_of_near fits second near'
  omega

end Bytes

section Stores

variable {mem : BitVec w → BitVec 8} {base byte : BitVec w} {count i j : Nat} {value : BitVec 32}

/-- Storing an element leaves everything outside of the array alone. -/
theorem store_element_outside (below : i < count) (outside : ¬ InArray base count byte) :
    storeWord mem (element base i) value byte = mem byte :=
  storeWord_outside _ _ _ fun near => outside (inArray_of_near below near)

theorem words_store_self (wide : 2 ≤ w) :
    words (storeWord mem (element base i) value) base i = value :=
  loadWord_storeWord _ _ _ wide

theorem words_store_of_ne (fits : 4 * count ≤ 2 ^ w) (first : i < count) (second : j < count)
    (ne : i ≠ j) : words (storeWord mem (element base i) value) base j = words mem base j :=
  loadWord_congr fun _ near =>
    storeWord_outside _ _ _ (apart_of_ne fits second first (Ne.symm ne) near)

end Stores

end RiscvLab.Lib.WordArray
