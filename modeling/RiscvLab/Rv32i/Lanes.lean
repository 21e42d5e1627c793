import RiscvLab.Rv32i.Machine

/-!
# Aligned accesses as accesses of one word

A naturally aligned load or store touches the lanes of a single word. The
architecture's byte-wise accesses are restated on that word, the form in which
both cores perform them.
-/
namespace RiscvLab.Rv32i
open RiscvLab.Lib.ByteMemory

def Aligned (size : Nat) (a : Word) : Prop := a.toNat % size = 0

instance (size : Nat) (a : Word) : Decidable (Aligned size a) := by
  unfold Aligned
  infer_instance

def laneOf (a : Word) : BitVec 2 := a.extractLsb' 0 2

def indexOf (a : Word) : BitVec 30 := a.extractLsb' 2 30

theorem split_address (a : Word) : indexOf a ++ laneOf a = a := index_append_lane (n := 30) a

theorem toNat_laneOf (a : Word) : (laneOf a).toNat = a.toNat % 4 := by
  simp [laneOf, BitVec.extractLsb'_toNat]

/-- Access to data is aligned and inside a memory of `depth` words. -/
def DataOk (depth : Nat) (a : Arch) (i : Instr) : Prop :=
  ∀ size address, access a i = some (size, address) →
    Aligned size address ∧ (indexOf address).toNat < depth

instance (depth : Nat) (a : Arch) (i : Instr) : Decidable (DataOk depth a i) :=
  decidable_of_iff (∀ p ∈ access a i, Aligned p.1 p.2 ∧ (indexOf p.2).toNat < depth)
    ⟨fun h size address same => h (size, address) same, fun h p same => h p.1 p.2 same⟩

theorem laneOf_half {a : Word} (h : Aligned 2 a) : laneOf a = 0 ∨ laneOf a = 2 := by
  have lane := toNat_laneOf a
  have lt := (laneOf a).isLt
  unfold Aligned at h
  rcases (by omega : (laneOf a).toNat = 0 ∨ (laneOf a).toNat = 2) with e | e
  · exact .inl (BitVec.eq_of_toNat_eq e)
  · exact .inr (BitVec.eq_of_toNat_eq e)

theorem laneOf_word {a : Word} (h : Aligned 4 a) : laneOf a = 0 := by
  apply BitVec.eq_of_toNat_eq
  rw [toNat_laneOf]
  exact h

/-- An aligned access of 1, 2 or 4 bytes does not leave its word. -/
theorem lane_fits {size : Nat} {a : Word} (h : Aligned size a)
    (sizes : size = 1 ∨ size = 2 ∨ size = 4) : (laneOf a).toNat + size ≤ 4 := by
  rw [toNat_laneOf]
  unfold Aligned at h
  rcases sizes with rfl | rfl | rfl <;> omega

theorem LoadOp.size_cases (op : LoadOp) : op.size = 1 ∨ op.size = 2 ∨ op.size = 4 := by
  cases op <;> decide

theorem StoreOp.size_cases (op : StoreOp) : op.size = 1 ∨ op.size = 2 ∨ op.size = 4 := by
  cases op <;> decide

/-- A lane above the addressed one has the address that many bytes further on. -/
theorem append_add_lane (index : BitVec 30) (lane : BitVec 2) (k : Nat)
    (h : lane.toNat + k < 4) :
    (index ++ lane : Word) + BitVec.ofNat 32 k = index ++ (lane + BitVec.ofNat 2 k) := by
  apply BitVec.eq_of_toNat_eq
  have hi := index.isLt
  rw [BitVec.toNat_add, toNat_append_lane, toNat_append_lane, BitVec.toNat_add,
    BitVec.toNat_ofNat, BitVec.toNat_ofNat]
  omega

/-- The value an aligned load takes from the word it addresses. -/
def loadWord (op : LoadOp) (word : Word) (lane : BitVec 2) : Word :=
  match op with
  | .lb => (byteOf word lane).signExtend 32
  | .lh => (byteOf word (lane + 1) ++ byteOf word lane).signExtend 32
  | .lw => word
  | .lbu => (byteOf word lane).setWidth 32
  | .lhu => (byteOf word (lane + 1) ++ byteOf word lane).setWidth 32

theorem loadResult_word {op : LoadOp} {a : Word} (mem : Word → Byte) (h : Aligned op.size a) :
    loadResult op mem a = loadWord op (wordAt (n := 30) mem (indexOf a)) (laneOf a) := by
  have fits := lane_fits h op.size_cases
  have byte : ∀ k, (laneOf a).toNat + k < 4 →
      mem (a + BitVec.ofNat 32 k) =
        byteOf (wordAt (n := 30) mem (indexOf a)) (laneOf a + BitVec.ofNat 2 k) := by
    intro k hk
    rw [byteOf_wordAt, ← append_add_lane _ _ _ hk, split_address]
  have first : mem a = byteOf (wordAt (n := 30) mem (indexOf a)) (laneOf a) := by
    rw [byteOf_wordAt, split_address]
  cases op with
  | lb => rw [loadResult, loadWord, first]
  | lbu => rw [loadResult, loadWord, first]
  | lh =>
    change (laneOf a).toNat + 2 ≤ 4 at fits
    rw [loadResult, loadWord, first]
    exact congrArg (fun b => (b ++ _ : BitVec 16).signExtend 32) (byte 1 (by omega))
  | lhu =>
    change (laneOf a).toNat + 2 ≤ 4 at fits
    rw [loadResult, loadWord, first]
    exact congrArg (fun b => (b ++ _ : BitVec 16).setWidth 32) (byte 1 (by omega))
  | lw =>
    have zero := laneOf_word h
    have b1 := byte 1 (by rw [zero]; decide)
    have b2 := byte 2 (by rw [zero]; decide)
    have b3 := byte 3 (by rw [zero]; decide)
    rw [zero] at b1 b2 b3 first
    calc loadResult .lw mem a
        = mem (a + 3) ++ mem (a + 2) ++ mem (a + 1) ++ mem a := rfl
      _ = ofBytes (byteOf (wordAt (n := 30) mem (indexOf a))) := by
        rw [first]
        exact congr (congrArg _ (congr (congrArg _ (congr (congrArg _ b3) b2)) b1)) rfl
      _ = _ := ofBytes_byteOf _

/-- Two words give an aligned load the same value exactly when they agree on the
bytes it addresses. -/
theorem loadWord_eq_iff (op : LoadOp) (v w : Word) (lane : BitVec 2) :
    loadWord op v lane = loadWord op w lane ↔
      ∀ j < op.size, byteOf v (lane + BitVec.ofNat 2 j) = byteOf w (lane + BitVec.ofNat 2 j) := by
  have one : (∀ j < 1, byteOf v (lane + BitVec.ofNat 2 j) = byteOf w (lane + BitVec.ofNat 2 j)) ↔
      byteOf v lane = byteOf w lane := by
    simp
  have two : (∀ j < 2, byteOf v (lane + BitVec.ofNat 2 j) = byteOf w (lane + BitVec.ofNat 2 j)) ↔
      byteOf v lane = byteOf w lane ∧ byteOf v (lane + 1) = byteOf w (lane + 1) := by
    refine ⟨fun same => ⟨one.mp (fun j hj => same j (by omega)), same 1 (by decide)⟩, ?_⟩
    rintro ⟨first, second⟩ j hj
    by_cases low : j < 1
    · exact one.mpr first j low
    · obtain rfl : j = 1 := by omega
      exact second
  cases op with
  | lb => rw [LoadOp.size, one]; exact signExtend_inj (by decide)
  | lbu => rw [LoadOp.size, one]; exact setWidth_inj (by decide)
  | lh => rw [LoadOp.size, two, loadWord, loadWord, signExtend_inj (by decide), append_inj]
  | lhu => rw [LoadOp.size, two, loadWord, loadWord, setWidth_inj (by decide), append_inj]
  | lw =>
    refine ⟨fun same j _ => congrArg (byteOf · _) same, fun same => word_ext (fun other => ?_)⟩
    have reached : lane + BitVec.ofNat 2 (other - lane).toNat = other := by
      rw [BitVec.ofNat_toNat, BitVec.setWidth_eq, add_sub_cancel]
    rw [← reached]
    exact same _ (other - lane).isLt

/-- An aligned store changes one word, by a merge. -/
theorem wordAt_store {op : StoreOp} {a : Word} (mem : Word → Byte) (value : Word)
    (other : BitVec 30) (h : Aligned op.size a) :
    wordAt (n := 30) (storeBytes (n := 30) mem a op.size value) other =
      if other = indexOf a then
        mergeBytes (wordAt (n := 30) mem (indexOf a)) (laneOf a) op.size value
      else wordAt (n := 30) mem other := by
  have fits := lane_fits h op.size_cases
  have stored := wordAt_storeBytes mem (indexOf a) other (laneOf a) op.size value fits
  rwa [split_address] at stored

/-- A store of a word replaces the word. -/
theorem wordAt_store_word {a : Word} (mem : Word → Byte) (value : Word) (other : BitVec 30)
    (h : Aligned 4 a) :
    wordAt (n := 30) (storeBytes (n := 30) mem a 4 value) other =
      if other = indexOf a then value else wordAt (n := 30) mem other := by
  have whole : ∀ old : Word, mergeBytes old 0 4 value = value := by
    intro old
    calc mergeBytes old 0 4 value
        = ofBytes (byteOf value) := by
          refine congrArg ofBytes (funext fun lane => ?_)
          have low := lane.isLt
          exact if_pos ⟨Nat.zero_le _, by omega⟩
      _ = value := ofBytes_byteOf value
  have stored : wordAt (n := 30) (storeBytes (n := 30) mem a StoreOp.sw.size value) other = _ :=
    wordAt_store mem value other h
  rw [laneOf_word h] at stored
  change _ = if other = indexOf a then mergeBytes _ 0 4 value else _ at stored
  rwa [whole] at stored

/-- A load of a word reads the word. -/
theorem loadResult_lw {a : Word} (mem : Word → Byte) (h : Aligned 4 a) :
    loadResult .lw mem a = wordAt (n := 30) mem (indexOf a) :=
  loadResult_word mem h

end RiscvLab.Rv32i
