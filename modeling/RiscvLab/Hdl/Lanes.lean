import RiscvLab.Hdl.Blocks

/-!
# Part-selects as bytes

The cores write lane extraction and lane merging as concatenations of
part-selects. These are the extensions and merges they stand for.
-/
namespace RiscvLab.Hdl
open RiscvLab.Lib.ByteMemory

/-- Replicating the top bit in front of a value sign-extends it. -/
theorem fill_append {k n : Nat} {sign : Bool} (v : BitVec n) (h : sign = v.msb) :
    BitVec.fill k sign ++ v = v.signExtend (k + n) := by
  subst h
  ext i hi
  simp only [BitVec.getElem_append, BitVec.getElem_fill, BitVec.getElem_signExtend]

theorem zero_append {k n : Nat} (v : BitVec n) : 0#k ++ v = v.setWidth (k + n) := by
  ext i hi
  grind

theorem sign_select (w : Word) (first len : Nat) (hl : 0 < len) :
    w.getLsbD (first + (len - 1)) = (w.extractLsb' first len).msb := by
  rw [BitVec.msb_eq_getLsbD_last, BitVec.getLsbD_extractLsb', decide_eq_true (by omega),
    Bool.true_and]

theorem half_low (w : Word) : w.extractLsb' 0 16 = byteOf w 1 ++ byteOf w 0 := by
  ext i hi
  grind [byteOf]

theorem half_high (w : Word) : w.extractLsb' 16 16 = byteOf w 3 ++ byteOf w 2 := by
  ext i hi
  grind [byteOf]

section Extract

variable (undefined w : Word) (lane : BitVec 2)

theorem signedByte_eq : signedByte w lane = (byteOf w lane).signExtend 32 := by
  have byte : ∀ lane : BitVec 2, w.getLsbD (8 * lane.toNat + 7) = (byteOf w lane).msb :=
    fun lane => sign_select w (8 * lane.toNat) 8 (by decide)
  revert lane
  exact forall_lane.mpr ⟨fill_append _ (byte 0), fill_append _ (byte 1), fill_append _ (byte 2),
    fill_append _ (byte 3)⟩

theorem unsignedByte_eq : unsignedByte w lane = (byteOf w lane).setWidth 32 := by
  revert lane
  exact forall_lane.mpr ⟨zero_append _, zero_append _, zero_append _, zero_append _⟩

theorem signedHalf_eq (even : lane = 0 ∨ lane = 2) :
    signedHalf undefined w lane = (byteOf w (lane + 1) ++ byteOf w lane).signExtend 32 := by
  have low : w.getLsbD 15 = (w.extractLsb' 0 16).msb := sign_select w 0 16 (by decide)
  have high : w.getLsbD 31 = (w.extractLsb' 16 16).msb := sign_select w 16 16 (by decide)
  rcases even with rfl | rfl
  · exact (fill_append _ low).trans (by rw [half_low]; rfl)
  · exact (fill_append _ high).trans (by rw [half_high]; rfl)

theorem unsignedHalf_eq (even : lane = 0 ∨ lane = 2) :
    unsignedHalf undefined w lane = (byteOf w (lane + 1) ++ byteOf w lane).setWidth 32 := by
  rcases even with rfl | rfl
  · exact (zero_append _).trans (by rw [half_low]; rfl)
  · exact (zero_append _).trans (by rw [half_high]; rfl)

end Extract

section Merge

variable (w v : Word)

theorem eq_mergeBytes {u : Word} {first : BitVec 2} {count : Nat}
    (h : ∀ lane, byteOf u lane =
      if first.toNat ≤ lane.toNat ∧ lane.toNat < first.toNat + count then
        v.extractLsb' (8 * (lane.toNat - first.toNat)) 8
      else byteOf w lane) : u = mergeBytes w first count v := by
  apply word_ext
  intro lane
  rw [mergeBytes, byteOf_ofBytes, h]

theorem merge_byte0 : w.extractLsb' 8 24 ++ v.extractLsb' 0 8 = mergeBytes w 0 1 v := by
  refine eq_mergeBytes w v (forall_lane.mpr ⟨?_, ?_, ?_, ?_⟩) <;>
  · ext i hi
    grind [byteOf]

theorem merge_byte1 :
    w.extractLsb' 16 16 ++ v.extractLsb' 0 8 ++ w.extractLsb' 0 8 = mergeBytes w 1 1 v := by
  refine eq_mergeBytes w v (forall_lane.mpr ⟨?_, ?_, ?_, ?_⟩) <;>
  · ext i hi
    grind [byteOf]

theorem merge_byte2 :
    w.extractLsb' 24 8 ++ v.extractLsb' 0 8 ++ w.extractLsb' 0 16 = mergeBytes w 2 1 v := by
  refine eq_mergeBytes w v (forall_lane.mpr ⟨?_, ?_, ?_, ?_⟩) <;>
  · ext i hi
    grind [byteOf]

theorem merge_byte3 : v.extractLsb' 0 8 ++ w.extractLsb' 0 24 = mergeBytes w 3 1 v := by
  refine eq_mergeBytes w v (forall_lane.mpr ⟨?_, ?_, ?_, ?_⟩) <;>
  · ext i hi
    grind [byteOf]

theorem merge_half0 : w.extractLsb' 16 16 ++ v.extractLsb' 0 16 = mergeBytes w 0 2 v := by
  refine eq_mergeBytes w v (forall_lane.mpr ⟨?_, ?_, ?_, ?_⟩) <;>
  · ext i hi
    grind [byteOf]

theorem merge_half2 : v.extractLsb' 0 16 ++ w.extractLsb' 0 16 = mergeBytes w 2 2 v := by
  refine eq_mergeBytes w v (forall_lane.mpr ⟨?_, ?_, ?_, ?_⟩) <;>
  · ext i hi
    grind [byteOf]

theorem storeHalf_eq (undefined : Word) {lane : BitVec 2} (even : lane = 0 ∨ lane = 2) :
    storeHalf undefined w lane v = mergeBytes w lane 2 v := by
  rcases even with rfl | rfl
  · exact merge_half0 w v
  · exact merge_half2 w v

theorem merge_word : v = mergeBytes w 0 4 v := by
  refine eq_mergeBytes w v (forall_lane.mpr ⟨?_, ?_, ?_, ?_⟩) <;>
  · ext i hi
    grind [byteOf]

end Merge

end RiscvLab.Hdl
