import Mathlib.Data.BitVec

/-!
# Byte-addressed memory over 32-bit words

Little-endian bytes on one side, an array of four-byte words on the other. A
byte address is a word index followed by a two-bit lane. The facts below turn a
store of one, two or four bytes into a store of one whole word.
-/
namespace RiscvLab.Lib.ByteMemory

abbrev Byte := BitVec 8

abbrev Word := BitVec 32

/-- The byte of a word in one lane, lane 0 lowest. -/
def byteOf (word : Word) (lane : BitVec 2) : Byte :=
  word.extractLsb' (8 * lane.toNat) 8

/-- The word whose lanes hold the given bytes. -/
def ofBytes (bytes : BitVec 2 → Byte) : Word :=
  bytes 3 ++ bytes 2 ++ bytes 1 ++ bytes 0

theorem forall_lane {holds : BitVec 2 → Prop} :
    (∀ lane, holds lane) ↔ holds 0 ∧ holds 1 ∧ holds 2 ∧ holds 3 := by
  constructor
  · intro h
    exact ⟨h 0, h 1, h 2, h 3⟩
  · rintro ⟨h0, h1, h2, h3⟩ lane
    have four : lane = 0 ∨ lane = 1 ∨ lane = 2 ∨ lane = 3 := by
      revert lane
      decide
    rcases four with rfl | rfl | rfl | rfl <;> assumption

@[simp] theorem byteOf_ofBytes (bytes : BitVec 2 → Byte) (lane : BitVec 2) :
    byteOf (ofBytes bytes) lane = bytes lane := by
  revert lane
  refine forall_lane.mpr ⟨?_, ?_, ?_, ?_⟩ <;>
  · ext i hi
    grind [byteOf, ofBytes]

@[simp] theorem ofBytes_byteOf (word : Word) : ofBytes (byteOf word) = word := by
  ext i hi
  grind [byteOf, ofBytes]

/-- Two words are equal when their bytes are. -/
theorem word_ext {a b : Word} (h : ∀ lane, byteOf a lane = byteOf b lane) : a = b := by
  rw [← ofBytes_byteOf a, ← ofBytes_byteOf b, funext h]

section Memory

variable {n : Nat}

/-- The word at an index of a byte-addressed memory. -/
def wordAt (mem : BitVec (n + 2) → Byte) (index : BitVec n) : Word :=
  ofBytes (fun lane => mem (index ++ lane))

/-- The bytes of an array of words. -/
def bytesOf (words : BitVec n → Word) : BitVec (n + 2) → Byte := fun address =>
  byteOf (words (address.extractLsb' 2 n)) (address.extractLsb' 0 2)

theorem index_append_lane (address : BitVec (n + 2)) :
    address.extractLsb' 2 n ++ address.extractLsb' 0 2 = address := by
  ext i hi
  grind

@[simp] theorem bytesOf_append (words : BitVec n → Word) (index : BitVec n)
    (lane : BitVec 2) : bytesOf words (index ++ lane) = byteOf (words index) lane := by
  have hi : (index ++ lane).extractLsb' 2 n = index := by ext i hi; grind
  have hl : (index ++ lane).extractLsb' 0 2 = lane := by ext i hi; grind
  rw [bytesOf, hi, hl]

@[simp] theorem wordAt_bytesOf (words : BitVec n → Word) (index : BitVec n) :
    wordAt (bytesOf words) index = words index := by
  simp [wordAt]

@[simp] theorem byteOf_wordAt (mem : BitVec (n + 2) → Byte) (index : BitVec n)
    (lane : BitVec 2) : byteOf (wordAt mem index) lane = mem (index ++ lane) := by
  simp [wordAt]

/-- Replace the `count` bytes from `address` on by the low bytes of `value`. -/
def storeBytes (mem : BitVec (n + 2) → Byte) (address : BitVec (n + 2)) (count : Nat)
    (value : Word) : BitVec (n + 2) → Byte := fun a =>
  if (a - address).toNat < count then value.extractLsb' (8 * (a - address).toNat) 8 else mem a

theorem toNat_append_lane (index : BitVec n) (lane : BitVec 2) :
    (index ++ lane).toNat = 4 * index.toNat + lane.toNat := by
  rw [BitVec.toNat_append, ← Nat.shiftLeft_add_eq_or_of_lt lane.isLt, Nat.shiftLeft_eq]
  omega

/-- Inside one word, an address lies in a stored range exactly when its lane does. -/
theorem sub_append_lt_iff (i j : BitVec n) (l k : BitVec 2) (count : Nat)
    (fits : k.toNat + count ≤ 4) :
    ((i ++ l) - (j ++ k)).toNat < count ↔
      i = j ∧ k.toNat ≤ l.toNat ∧ l.toNat < k.toNat + count := by
  have hl := l.isLt
  have hi := i.isLt
  have hj := j.isLt
  have pow : 2 ^ (n + 2) = 4 * 2 ^ n := by rw [Nat.pow_succ, Nat.pow_succ]; omega
  rw [BitVec.toNat_sub, toNat_append_lane, toNat_append_lane, pow, ← BitVec.toNat_inj]
  generalize 2 ^ n = size at *
  rcases Nat.lt_trichotomy (4 * i.toNat + l.toNat) (4 * j.toNat + k.toNat) with lt | eq | gt
  · rw [Nat.mod_eq_of_lt (by omega)]
    omega
  · rw [eq, Nat.sub_add_cancel (by omega), Nat.mod_self]
    omega
  · rw [show 4 * size - (4 * j.toNat + k.toNat) + (4 * i.toNat + l.toNat) =
      4 * size + (4 * i.toNat + l.toNat - (4 * j.toNat + k.toNat)) by omega,
      Nat.add_mod_left, Nat.mod_eq_of_lt (by omega)]
    omega

theorem sub_append_toNat (i : BitVec n) (l k : BitVec 2) (le : k.toNat ≤ l.toNat) :
    ((i ++ l) - (i ++ k)).toNat = l.toNat - k.toNat := by
  have hl := l.isLt
  have hi := i.isLt
  have pow : 2 ^ (n + 2) = 4 * 2 ^ n := by rw [Nat.pow_succ, Nat.pow_succ]; omega
  rw [BitVec.toNat_sub, toNat_append_lane, toNat_append_lane, pow]
  rw [show 4 * 2 ^ n - (4 * i.toNat + k.toNat) + (4 * i.toNat + l.toNat) =
    4 * 2 ^ n + (l.toNat - k.toNat) by omega, Nat.add_mod_left, Nat.mod_eq_of_lt (by omega)]

/-- The bytes of `old` with `count` bytes from lane `first` on replaced by the
low bytes of `value`. -/
def mergeBytes (old : Word) (first : BitVec 2) (count : Nat) (value : Word) :
    Word :=
  ofBytes (fun lane =>
    if first.toNat ≤ lane.toNat ∧ lane.toNat < first.toNat + count then
      value.extractLsb' (8 * (lane.toNat - first.toNat)) 8
    else byteOf old lane)

/-- A store that stays inside one word changes that word by a merge and leaves
every other word alone. -/
theorem wordAt_storeBytes (mem : BitVec (n + 2) → Byte) (index other : BitVec n)
    (first : BitVec 2) (count : Nat) (value : Word) (fits : first.toNat + count ≤ 4) :
    wordAt (storeBytes mem (index ++ first) count value) other =
      if other = index then mergeBytes (wordAt mem index) first count value
      else wordAt mem other := by
  apply word_ext
  intro lane
  rw [byteOf_wordAt, storeBytes]
  simp only [sub_append_lt_iff other index lane first count fits]
  by_cases same : other = index
  · subst other
    simp only [true_and, if_true, mergeBytes, byteOf_ofBytes, byteOf_wordAt]
    split
    next inside => rw [sub_append_toNat index lane first inside.1]
    next => rfl
  · simp [same]

end Memory

section Injective

theorem signExtend_inj {a b : Nat} (le : a ≤ b) {v w : BitVec a} :
    v.signExtend b = w.signExtend b ↔ v = w := by
  refine ⟨fun same => ?_, congrArg _⟩
  ext i hi
  have inside : i < b := by omega
  have bit : (v.signExtend b)[i] = (w.signExtend b)[i] := by rw [same]
  rwa [BitVec.getElem_signExtend, BitVec.getElem_signExtend, dif_pos hi, dif_pos hi] at bit

theorem setWidth_inj {a b : Nat} (le : a ≤ b) {v w : BitVec a} :
    v.setWidth b = w.setWidth b ↔ v = w := by
  refine ⟨fun same => ?_, congrArg _⟩
  have back := congrArg (fun u => u.setWidth a) same
  simpa [BitVec.setWidth_setWidth_of_le _ le] using back

theorem append_inj {high high' low low' : Byte} :
    high ++ low = high' ++ low' ↔ low = low' ∧ high = high' := by
  constructor
  · intro same
    refine ⟨?_, ?_⟩
    · ext i hi
      have bit := congrArg (fun u => u.getLsbD i) same
      grind
    · ext i hi
      have bit := congrArg (fun u => u.getLsbD (8 + i)) same
      grind
  · rintro ⟨rfl, rfl⟩
    rfl

end Injective

end RiscvLab.Lib.ByteMemory
