import RiscvLab.Hdl.Lanes
import RiscvLab.Pipelined.Core
import RiscvLab.Rv32i.Lanes

/-!
# The load and store units of the pipelined core

For aligned addresses the load unit extracts the architectural value from the
word read, and the store unit merges the architectural bytes into it.
-/
namespace RiscvLab.Pipelined
open RiscvLab.Lib.ByteMemory RiscvLab.Hdl RiscvLab.Rv32i

section Load

variable (x : Undef) (w : Word)

theorem load_unit {f3 : BitVec 3} {op : LoadOp} {a : Word} (h : loadOp f3 = some op)
    (aligned : Aligned op.size a) : load x true true 0b01 f3 a w = loadWord op w (laneOf a) := by
  unfold loadOp at h
  split at h <;> cases h
  · exact signedByte_eq w (laneOf a)
  · exact signedHalf_eq x.loadLane w (laneOf a) (laneOf_half aligned)
  · rfl
  · exact unsignedByte_eq w (laneOf a)
  · exact unsignedHalf_eq x.loadLane w (laneOf a) (laneOf_half aligned)

/-- Unless an instruction is a load, the load unit passes the word on. -/
theorem load_transparent (aluSrc : Bool) (resultSrc : BitVec 2) (f3 : BitVec 3) (a : Word) :
    load x false aluSrc resultSrc f3 a w = w := rfl

end Load

theorem store_unit (x : Undef) {f3 : BitVec 3} {op : StoreOp} {a : Word} (w v : Word)
    (h : storeOp f3 = some op) (aligned : Aligned op.size a) :
    store x true f3 a w v = mergeBytes w (laneOf a) op.size v := by
  unfold storeOp at h
  split at h <;> cases h
  · have lanes : ∀ lane : BitVec 2, lane = 0 ∨ lane = 1 ∨ lane = 2 ∨ lane = 3 := by decide
    unfold store
    rw [if_pos rfl]
    rcases lanes (laneOf a) with lane | lane | lane | lane <;> rw [lane] <;>
      unfold laneOf at lane <;> rw [lane]
    · exact merge_byte0 w v
    · exact merge_byte1 w v
    · exact merge_byte2 w v
    · exact merge_byte3 w v
  · exact storeHalf_eq w v x.storeLane (laneOf_half aligned)
  · rw [laneOf_word aligned]
    exact merge_word w v

/-- For a misaligned half-word the source assigns nothing; a misaligned word goes out whole. -/
theorem store_misaligned (x : Undef) {f3 : BitVec 3} {op : StoreOp} {a : Word} (w v : Word)
    (h : storeOp f3 = some op) (misaligned : ¬ Aligned op.size a) :
    store x true f3 a w v = if op = .sh then x.storeLane else v := by
  unfold storeOp at h
  split at h <;> cases h
  · exact absurd (Nat.mod_one _) misaligned
  · change storeHalf x.storeLane w (laneOf a) v = _
    have odd : laneOf a = 1 ∨ laneOf a = 3 := by
      have lane := toNat_laneOf a
      unfold Aligned at misaligned
      have cases : (laneOf a).toNat = 1 ∨ (laneOf a).toNat = 3 := by
        change ¬ a.toNat % 2 = 0 at misaligned
        omega
      rcases cases with one | three
      · exact .inl (BitVec.eq_of_toNat_eq one)
      · exact .inr (BitVec.eq_of_toNat_eq three)
    rcases odd with lane | lane <;> rw [lane] <;> rfl
  · rfl

theorem store_other (x : Undef) {f3 : BitVec 3} (a w v : Word) (h : storeOp f3 = none) :
    store x true f3 a w v = v := by
  unfold storeOp at h
  split at h <;> cases h
  unfold store
  rw [if_pos rfl]
  split
  · contradiction
  · contradiction
  · rfl

end RiscvLab.Pipelined
