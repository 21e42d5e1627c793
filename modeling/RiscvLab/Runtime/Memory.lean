import RiscvLab.Runtime.Printf
import RiscvLab.Lib.BlockCopy

/-!
# Copying and filling memory

`memcpy` and `memset` of lab1/common/syscalls.c, with their loops over words and over bytes,
and `init_tls`, which is built on them.
-/
namespace RiscvLab.Runtime
open RiscvLab.Lib.BlockCopy

abbrev Memory := Word64 → BitVec 8

section Access

/-- The byte of a number at an offset, the lowest one first. -/
def wordByte {n : Nat} (word : BitVec n) (k : Nat) : BitVec 8 := word.extractLsb' (8 * k) 8

def loadWord (mem : Memory) (a : Word64) : Word64 :=
  mem (a + 7) ++ mem (a + 6) ++ mem (a + 5) ++ mem (a + 4) ++ mem (a + 3) ++ mem (a + 2) ++
    mem (a + 1) ++ mem a

def storeWord (mem : Memory) (a word : Word64) : Memory := store mem a 8 (wordByte word)

def storeByte (mem : Memory) (a : Word64) (byte : BitVec 8) : Memory := store mem a 1 fun _ => byte

theorem wordByte_zero {n : Nat} (high : BitVec n) (low : BitVec 8) :
    wordByte (high ++ low) 0 = low := by
  rw [wordByte, BitVec.extractLsb'_append_eq_of_add_le (by decide)]
  exact BitVec.extractLsb'_eq_self

theorem wordByte_succ {n : Nat} (high : BitVec n) (low : BitVec 8) (k : Nat) :
    wordByte (high ++ low) (k + 1) = wordByte high k := by
  rw [wordByte, BitVec.extractLsb'_append_eq_of_le (by omega)]
  rfl

theorem wordByte_loadWord (mem : Memory) (a : Word64) {k : Nat} (inside : k < 8) :
    wordByte (loadWord mem a) k = mem (a + BitVec.ofNat 64 k) := by
  unfold loadWord
  match k, inside with
  | 0, _ =>
    rw [BitVec.add_zero]
    exact wordByte_zero _ _
  | 1, _ | 2, _ | 3, _ | 4, _ | 5, _ | 6, _ =>
    repeat refine (wordByte_succ _ _ _).trans ?_
    exact wordByte_zero _ _
  | 7, _ =>
    repeat refine (wordByte_succ _ _ _).trans ?_
    exact BitVec.extractLsb'_eq_self

theorem storeWord_loadWord (mem : Memory) (d s : Word64) :
    storeWord mem d (loadWord mem s) = move mem d s 8 :=
  store_congr fun _ inside => wordByte_loadWord mem s inside

theorem storeByte_load (mem : Memory) (d s : Word64) :
    storeByte mem d (mem s) = move mem d s 1 := by
  refine store_congr fun k inside => ?_
  obtain rfl : k = 0 := by omega
  exact congrArg mem (BitVec.add_zero s).symm

end Access

section Functions

/-- `while (d < limit) *d++ = *s++;` on units of `size` bytes. -/
def copyLoop (size : Nat) (unit : Memory → Word64 → Word64 → Memory) (limit : Word64)
    (rounds : Nat) (mem : Memory) (d s : Word64) : Option Memory :=
  (pointerLoop size limit (fun (p : Memory × Word64) d =>
    (unit p.1 d p.2, p.2 + BitVec.ofNat 64 size)) rounds (mem, s) d).map Prod.fst

variable (mem : Memory)

def memcpy (dest src len : Word64) : Option (Memory × Word64) :=
  (if (dest ||| src ||| len) &&& 7 = 0 then
    copyLoop 8 (fun mem d s => storeWord mem d (loadWord mem s)) (dest + len) (len.toNat + 1)
      mem dest src
  else
    copyLoop 1 (fun mem d s => storeByte mem d (mem s)) (dest + len) (len.toNat + 1)
      mem dest src).map fun mem => (mem, dest)

/-- The lowest byte of an `int` in all bytes of a word. -/
def broadcast (byte : BitVec 32) : Word64 :=
  let word := (byte &&& 0xff).signExtend 64
  let word := word ||| word <<< 8
  let word := word ||| word <<< 16
  word ||| word <<< 16 <<< 16

def memset (dest : Word64) (byte : BitVec 32) (len : Word64) : Option (Memory × Word64) :=
  (if (dest ||| len) &&& 7 = 0 then
    pointerLoop 8 (dest + len) (fun mem d => storeWord mem d (broadcast byte)) (len.toNat + 1)
      mem dest
  else
    pointerLoop 1 (dest + len) (fun mem d => storeByte mem d (byte.setWidth 8)) (len.toNat + 1)
      mem dest).map fun mem => (mem, dest)

/-- The initial values of the thread-local data are copied behind `tp`, the rest is cleared. -/
def initTls (tp tdataBegin tdataEnd tbssEnd : Word64) : Option Memory := do
  let tdataSize := tdataEnd - tdataBegin
  let (mem, _) ← memcpy mem tp tdataBegin tdataSize
  let tbssSize := tbssEnd - tdataEnd
  let (mem, _) ← memset mem (tp + tdataSize) 0 tbssSize
  return mem

end Functions

section Correct

variable {mem : Memory} {dest src len : Word64}

theorem low_bits {v : Word64} : v &&& 7 = 0 ↔ v.toNat % 8 = 0 := by
  rw [← BitVec.toNat_inj, BitVec.toNat_and]
  exact iff_of_eq (congrArg (· = 0) (Nat.and_two_pow_sub_one_eq_mod v.toNat 3))

theorem low_bits_or {v u : Word64} : (v ||| u) &&& 7 = 0 ↔ v &&& 7 = 0 ∧ u &&& 7 = 0 := by
  rw [BitVec.and_comm, BitVec.and_or_distrib_left, BitVec.and_comm 7 v, BitVec.and_comm 7 u]
  exact BitVec.or_eq_zero_iff

/-- A block that would go past the highest address ends below its start. -/
theorem wraps {start : Word64} (past : ¬ start.toNat + len.toNat < 2 ^ 64) :
    ¬ start < start + len := by
  have bound := len.isLt
  have bound' := start.isLt
  rw [BitVec.lt_def, BitVec.toNat_add]
  omega

/-- What `n` units leave, if no unit overlaps its own copy. -/
theorem copyLoop_run {size n : Nat} {unit : Memory → Word64 → Word64 → Memory}
    (moves : ∀ mem d s, unit mem d s = move mem d s size) (positive : 0 < size)
    (whole : size * n = len.toNat) (inside : dest.toNat + len.toNat < 2 ^ 64)
    (apart : offset dest src = 0 ∨ size ≤ offset dest src) :
    copyLoop size unit (dest + len) (len.toNat + 1) mem dest src =
      some (copied mem dest src len.toNat) := by
  let body := fun (p : Memory × Word64) d => (unit p.1 d p.2, p.2 + BitVec.ofNat 64 size)
  let state := fun k => (copied mem dest src (size * k), src + BitVec.ofNat 64 (size * k))
  have first : state 0 = (mem, src) := by
    dsimp only [state]
    rw [Nat.mul_zero, copied_zero, BitVec.add_zero]
  have round : ∀ k < n, body (state k) (dest + BitVec.ofNat 64 (size * k)) = state (k + 1) := by
    intro k before
    have next := Nat.mul_le_mul_left size (Nat.succ_le_of_lt before)
    rw [Nat.mul_succ] at next
    dsimp only [body, state]
    rw [moves, move_copied (by omega) apart, Nat.mul_succ, BitVec.add_assoc, ← BitVec.ofNat_add]
  have enough : n < len.toNat + 1 :=
    Nat.lt_succ_of_le (whole ▸ Nat.le_mul_of_pos_left n positive)
  have run := pointerLoop_run positive (whole ▸ inside) round enough
  rw [first, whole, BitVec.ofNat_toNat, BitVec.setWidth_eq] at run
  unfold copyLoop
  rw [run]
  dsimp only [state, Option.map_some]
  rw [whole]

/-- The units of `memcpy` do not overlap their own copies. -/
theorem apart_of_low (destLow : dest &&& 7 = 0) (srcLow : src &&& 7 = 0) :
    offset dest src = 0 ∨ 8 ≤ offset dest src := by
  rw [low_bits] at destLow srcLow
  have bound := src.isLt
  have value : offset dest src = (2 ^ 64 - src.toNat + dest.toNat) % 2 ^ 64 :=
    BitVec.toNat_sub dest src
  omega

/-- `memcpy` always returns. It leaves what a copy from the low end leaves, whether it goes by
words or by bytes, and nothing is copied to a block that goes past the highest address. -/
theorem memcpy_eq (mem : Memory) (dest src len : Word64) : memcpy mem dest src len =
    some (if dest.toNat + len.toNat < 2 ^ 64 then copied mem dest src len.toNat else mem,
      dest) := by
  unfold memcpy
  by_cases fits : dest.toNat + len.toNat < 2 ^ 64
  · rw [if_pos fits]
    by_cases aligned : (dest ||| src ||| len) &&& 7 = 0
    · obtain ⟨both, lenLow⟩ := low_bits_or.mp aligned
      obtain ⟨destLow, srcLow⟩ := low_bits_or.mp both
      have whole : 8 * (len.toNat / 8) = len.toNat := by
        rw [low_bits] at lenLow
        omega
      rw [if_pos aligned, copyLoop_run storeWord_loadWord (by decide) whole fits
        (apart_of_low destLow srcLow)]
      rfl
    · rw [if_neg aligned, copyLoop_run storeByte_load (by decide) (Nat.one_mul _) fits
        (by omega)]
      rfl
  · rw [if_neg fits]
    unfold copyLoop
    rw [pointerLoop_none (wraps fits) (Nat.succ_pos _), pointerLoop_none (wraps fits)
      (Nat.succ_pos _)]
    exact congrArg (Option.map fun mem => (mem, dest)) (ite_self _)

/-- A copy by `memcpy`: the block at `dest` holds what stood at `src`, unless `dest` lies inside
of the source, where the part before `dest` is repeated; nothing else is written. A block that
would go past the highest address is not copied at all. -/
theorem memcpy_copies (mem : Memory) (dest src len : Word64) :
    ∃ mem', memcpy mem dest src len = some (mem', dest) ∧
      (dest.toNat + len.toNat < 2 ^ 64 →
        (∀ k < len.toNat, mem' (dest + BitVec.ofNat 64 k) =
          mem (src + BitVec.ofNat 64 (k % offset dest src))) ∧
        ∀ a, len.toNat ≤ offset a dest → mem' a = mem a) ∧
      (2 ^ 64 ≤ dest.toNat + len.toNat → mem' = mem) := by
  refine ⟨_, memcpy_eq mem dest src len, fun fits => ?_, fun past => ?_⟩
  · have bound := len.isLt
    rw [if_pos fits]
    exact ⟨fun k inside => store_at inside (by omega), fun a outside => store_outside outside⟩
  · exact if_neg (Nat.not_lt.mpr past)

end Correct

section Fill

theorem wordByte_or (v u : Word64) (k : Nat) :
    wordByte (v ||| u) k = wordByte v k ||| wordByte u k := BitVec.extractLsb'_or

theorem wordByte_shift (v : Word64) (n : Nat) {k : Nat} (inside : k < 8) :
    wordByte (v <<< (8 * n)) k = if k < n then 0 else wordByte v (k - n) := by
  ext i hi
  unfold wordByte
  rw [BitVec.getElem_extractLsb', BitVec.getLsbD_shiftLeft]
  by_cases below : k < n
  · have low : 8 * k + i < 8 * n := by omega
    rw [if_pos below, decide_eq_true low, Bool.not_true, Bool.and_false, Bool.false_and]
    exact (BitVec.getElem_zero hi).symm
  · have place : 8 * (k - n) + i = 8 * k + i - 8 * n := by omega
    rw [if_neg below, BitVec.getElem_extractLsb', place, decide_eq_true (by omega),
      decide_eq_false (by omega), Bool.not_false, Bool.and_true, Bool.true_and]

/-- The lowest `n` bytes of a word are all the same, the others are zero. -/
def Filled (b : BitVec 8) (n : Nat) (v : Word64) : Prop :=
  ∀ k < 8, wordByte v k = if k < n then b else 0

theorem filled_low (byte : BitVec 32) :
    Filled (byte.setWidth 8) 1 ((byte &&& 0xff).signExtend 64) := by
  have masked : byte &&& 0xff = (byte.setWidth 8).setWidth 32 := by
    apply BitVec.eq_of_toNat_eq
    rw [BitVec.toNat_and, BitVec.toNat_setWidth, BitVec.toNat_setWidth]
    change byte.toNat &&& 2 ^ 8 - 1 = _
    rw [Nat.and_two_pow_sub_one_eq_mod]
    omega
  have positive : (byte &&& 0xff).msb = false := by
    rw [BitVec.msb_and]
    exact Bool.and_false _
  intro k inside
  rw [BitVec.signExtend_eq_setWidth_of_msb_false positive, masked]
  ext i hi
  unfold wordByte
  rw [BitVec.getElem_extractLsb', BitVec.getLsbD_setWidth, BitVec.getLsbD_setWidth]
  split <;> grind

theorem Filled.double {b : BitVec 8} {n : Nat} {v : Word64} (h : Filled b n v) :
    Filled b (n + n) (v ||| v <<< (8 * n)) := by
  intro k inside
  rw [wordByte_or, wordByte_shift v n inside, h k inside]
  by_cases low : k < n
  · rw [if_pos low, if_pos low, if_pos (by omega)]
    exact BitVec.or_zero
  · rw [if_neg low, if_neg low, h (k - n) (by omega)]
    exact BitVec.zero_or.trans (if_congr (by omega) rfl rfl)

theorem wordByte_broadcast (byte : BitVec 32) {k : Nat} (inside : k < 8) :
    wordByte (broadcast byte) k = byte.setWidth 8 := by
  have twice : ∀ v : Word64, v <<< 16 <<< 16 = v <<< 32 :=
    fun v => (BitVec.shiftLeft_add v 16 16).symm
  have filled := (filled_low byte).double.double.double k inside
  dsimp only [broadcast]
  rw [twice]
  exact filled.trans (if_pos inside)

theorem storeWord_fill (byte : BitVec 32) (mem : Memory) (d : Word64) :
    storeWord mem d (broadcast byte) = store mem d 8 fun _ => byte.setWidth 8 :=
  store_congr fun _ inside => wordByte_broadcast byte inside

/-- What `n` units leave that are all set to a byte. -/
theorem fill_run {size n : Nat} {unit : Memory → Word64 → Memory} {b : BitVec 8} (mem : Memory)
    {dest len : Word64} (sets : ∀ mem d, unit mem d = store mem d size fun _ => b)
    (positive : 0 < size) (whole : size * n = len.toNat)
    (inside : dest.toNat + len.toNat < 2 ^ 64) :
    pointerLoop size (dest + len) unit (len.toNat + 1) mem dest =
      some (store mem dest len.toNat fun _ => b) := by
  let state := fun k => store mem dest (size * k) fun _ => b
  have round : ∀ k < n, unit (state k) (dest + BitVec.ofNat 64 (size * k)) = state (k + 1) := by
    intro k before
    have next := Nat.mul_le_mul_left size (Nat.succ_le_of_lt before)
    rw [Nat.mul_succ] at next
    dsimp only [state]
    rw [sets, Nat.mul_succ]
    exact store_append (by omega)
  have enough : n < len.toNat + 1 :=
    Nat.lt_succ_of_le (whole ▸ Nat.le_mul_of_pos_left n positive)
  have run := pointerLoop_run positive (whole ▸ inside) round enough
  have first : state 0 = mem := store_zero
  rw [first, whole, BitVec.ofNat_toNat, BitVec.setWidth_eq] at run
  rw [run]
  dsimp only [state]
  rw [whole]

/-- `memset` always returns, with all bytes of the block set. -/
theorem memset_eq (mem : Memory) (dest : Word64) (byte : BitVec 32) (len : Word64) :
    memset mem dest byte len =
      some (if dest.toNat + len.toNat < 2 ^ 64 then
        store mem dest len.toNat fun _ => byte.setWidth 8 else mem, dest) := by
  unfold memset
  by_cases fits : dest.toNat + len.toNat < 2 ^ 64
  · rw [if_pos fits]
    by_cases aligned : (dest ||| len) &&& 7 = 0
    · obtain ⟨-, lenLow⟩ := low_bits_or.mp aligned
      have whole : 8 * (len.toNat / 8) = len.toNat := by
        rw [low_bits] at lenLow
        omega
      rw [if_pos aligned, fill_run mem (storeWord_fill byte) (by decide) whole fits]
      rfl
    · have sets : ∀ mem d, storeByte mem d (byte.setWidth 8) =
          store mem d 1 fun _ => byte.setWidth 8 := fun _ _ => rfl
      rw [if_neg aligned, fill_run mem sets (by decide) (Nat.one_mul _) fits]
      rfl
  · rw [if_neg fits, pointerLoop_none (wraps fits) (Nat.succ_pos _), pointerLoop_none (wraps fits)
      (Nat.succ_pos _)]
    exact congrArg (Option.map fun mem => (mem, dest)) (ite_self _)

end Fill

section Startup

/-- Where the regions of the harts begin: the first multiple of 64 behind the image. -/
def regionBase (imageEnd : Word64) : Word64 := (imageEnd + 63) &&& -64

/-- The thread pointer that crt.S gives a hart. -/
def threadPointer (imageEnd hartid : Word64) : Word64 := regionBase imageEnd + hartid <<< 17

/-- The stack of a hart grows down from here. -/
def stackPointer (imageEnd hartid : Word64) : Word64 :=
  let next := hartid + 1
  next <<< 17 + regionBase imageEnd

/-- The symbols of the linker script. The zeros of `.tbss` take no room in the image, so that
`_tbss_end` may lie behind `_end`. -/
structure Image where
  tdataBegin : Word64
  tdataEnd : Word64
  tbssEnd : Word64
  imageEnd : Word64
  tdata : tdataBegin ≤ tdataEnd
  tbss : tdataEnd ≤ tbssEnd
  inside : tdataEnd ≤ imageEnd

theorem toNat_regionBase {imageEnd : Word64} (room : imageEnd.toNat + 63 < 2 ^ 64) :
    (regionBase imageEnd).toNat = (imageEnd.toNat + 63) / 64 * 64 := by
  have mask : ∀ i, i < 64 → (-64 : Word64).getLsbD i = decide (6 ≤ i) := by decide
  have cleared : ∀ v : Word64, (v >>> 6) <<< 6 = v &&& -64 := by
    intro v
    ext i hi
    have bit := mask i hi
    grind
  have past : (imageEnd + 63).toNat = imageEnd.toNat + 63 := by
    change (_ + 63) % 2 ^ 64 = _
    exact Nat.mod_eq_of_lt room
  unfold regionBase
  rw [← cleared, BitVec.toNat_shiftLeft, BitVec.toNat_ushiftRight, Nat.shiftRight_eq_div_pow,
    Nat.shiftLeft_eq, past]
  omega

/-- The region of a hart lies behind the image and has 128 KB. -/
theorem region_bounds {imageEnd hartid : Word64}
    (room : imageEnd.toNat + 63 + (hartid.toNat + 1) * 2 ^ 17 < 2 ^ 64) :
    imageEnd.toNat ≤ (threadPointer imageEnd hartid).toNat ∧
      (threadPointer imageEnd hartid).toNat + 2 ^ 17 = (stackPointer imageEnd hartid).toNat := by
  have shift : ∀ v : Word64, v.toNat ≤ hartid.toNat + 1 → (v <<< 17).toNat = v.toNat * 2 ^ 17 := by
    intro v bound
    rw [BitVec.toNat_shiftLeft, Nat.shiftLeft_eq]
    omega
  have next : (hartid + 1).toNat = hartid.toNat + 1 := by
    change (_ + 1) % 2 ^ 64 = _
    omega
  have base : (regionBase imageEnd).toNat = _ := toNat_regionBase (by omega)
  dsimp only [threadPointer, stackPointer]
  rw [BitVec.toNat_add, BitVec.toNat_add, base, shift _ (Nat.le_succ _),
    shift _ (Nat.le_of_eq next), next]
  omega

/-- The bytes behind the thread pointer: the image's initial values, then zeros. -/
def tlsBytes (mem : Memory) (image : Image) (k : Nat) : BitVec 8 :=
  if k < offset image.tdataEnd image.tdataBegin then mem (image.tdataBegin + BitVec.ofNat 64 k)
  else 0

theorem image_sizes (image : Image) :
    offset image.tbssEnd image.tdataBegin =
        offset image.tdataEnd image.tdataBegin + offset image.tbssEnd image.tdataEnd ∧
      image.tdataBegin.toNat + offset image.tdataEnd image.tdataBegin ≤ image.imageEnd.toNat := by
  have tdata : offset image.tdataEnd image.tdataBegin =
      image.tdataEnd.toNat - image.tdataBegin.toNat := BitVec.toNat_sub_of_le image.tdata
  have tbss : offset image.tbssEnd image.tdataEnd =
      image.tbssEnd.toNat - image.tdataEnd.toNat := BitVec.toNat_sub_of_le image.tbss
  have whole : offset image.tbssEnd image.tdataBegin =
      image.tbssEnd.toNat - image.tdataBegin.toNat :=
    BitVec.toNat_sub_of_le (BitVec.le_trans image.tdata image.tbss)
  have first := image.tdata
  have second := image.tbss
  have third := image.inside
  rw [BitVec.le_def] at first second third
  omega

section InitTls

variable (mem : Memory) (image : Image) {tp : Word64}

theorem initTls_copy (behind : image.imageEnd.toNat ≤ tp.toNat)
    (inside : tp.toNat + offset image.tbssEnd image.tdataBegin < 2 ^ 64) :
    memcpy mem tp image.tdataBegin (image.tdataEnd - image.tdataBegin) =
      some (store mem tp (offset image.tdataEnd image.tdataBegin) (tlsBytes mem image), tp) := by
  obtain ⟨sizes, below⟩ := image_sizes image
  have fits : tp.toNat + offset image.tdataEnd image.tdataBegin < 2 ^ 64 := by omega
  -- the thread's block lies behind the image that it is copied from
  have apart : offset image.tdataEnd image.tdataBegin ≤ offset tp image.tdataBegin := by
    have distance : offset tp image.tdataBegin = tp.toNat - image.tdataBegin.toNat :=
      BitVec.toNat_sub_of_le (BitVec.le_def.mpr (by omega))
    omega
  have initial : copied mem tp image.tdataBegin (offset image.tdataEnd image.tdataBegin) =
      store mem tp (offset image.tdataEnd image.tdataBegin) (tlsBytes mem image) :=
    (copied_apart apart).trans (store_congr fun k inside => (if_pos inside).symm)
  rw [memcpy_eq]
  exact congrArg (fun mem => some (mem, tp)) ((if_pos fits).trans initial)

theorem initTls_clear (inside : tp.toNat + offset image.tbssEnd image.tdataBegin < 2 ^ 64) :
    memset (store mem tp (offset image.tdataEnd image.tdataBegin) (tlsBytes mem image))
        (tp + (image.tdataEnd - image.tdataBegin)) 0 (image.tbssEnd - image.tdataEnd) =
      some (store mem tp (offset image.tbssEnd image.tdataBegin) (tlsBytes mem image),
        tp + (image.tdataEnd - image.tdataBegin)) := by
  obtain ⟨sizes, -⟩ := image_sizes image
  have data : tp.toNat + offset image.tdataEnd image.tdataBegin < 2 ^ 64 := by omega
  have start : (tp + (image.tdataEnd - image.tdataBegin)).toNat =
      tp.toNat + offset image.tdataEnd image.tdataBegin := by
    rw [BitVec.toNat_add]
    exact Nat.mod_eq_of_lt data
  have fits : (tp + (image.tdataEnd - image.tdataBegin)).toNat +
      offset image.tbssEnd image.tdataEnd < 2 ^ 64 := by omega
  have place : tp + (image.tdataEnd - image.tdataBegin) =
      tp + BitVec.ofNat 64 (offset image.tdataEnd image.tdataBegin) := by
    rw [offset, BitVec.ofNat_toNat, BitVec.setWidth_eq]
  have zeros : store (store mem tp (offset image.tdataEnd image.tdataBegin) (tlsBytes mem image))
      (tp + (image.tdataEnd - image.tdataBegin)) (offset image.tbssEnd image.tdataEnd)
        (fun _ => 0) =
      store mem tp (offset image.tbssEnd image.tdataBegin) (tlsBytes mem image) := by
    have rest : ∀ k < offset image.tbssEnd image.tdataEnd,
        0 = tlsBytes mem image (offset image.tdataEnd image.tdataBegin + k) := by
      intro k _
      exact (if_neg (by omega)).symm
    rw [store_congr rest, place, sizes]
    exact store_append (by omega)
  rw [memset_eq]
  exact congrArg (fun mem => some (mem, _)) ((if_pos fits).trans zeros)

theorem initTls_store (behind : image.imageEnd.toNat ≤ tp.toNat)
    (inside : tp.toNat + offset image.tbssEnd image.tdataBegin < 2 ^ 64) :
    initTls mem tp image.tdataBegin image.tdataEnd image.tbssEnd =
      some (store mem tp (offset image.tbssEnd image.tdataBegin) (tlsBytes mem image)) := by
  dsimp only [initTls]
  rw [initTls_copy mem image behind inside, Option.bind_eq_bind, Option.bind_some]
  dsimp only
  rw [initTls_clear mem image inside]
  rfl

end InitTls

/-- crt.S and `init_tls` together, for thread-local data of at most 128 KB: behind the thread
pointer of a hart stand the initial values and the zeros, and nothing outside of the hart's
region is written. -/
theorem initTls_region (mem : Memory) (image : Image) {hartid : Word64}
    (room : image.imageEnd.toNat + 63 + (hartid.toNat + 1) * 2 ^ 17 < 2 ^ 64)
    (small : offset image.tbssEnd image.tdataBegin ≤ 2 ^ 17) :
    ∃ mem', initTls mem (threadPointer image.imageEnd hartid) image.tdataBegin image.tdataEnd
        image.tbssEnd = some mem' ∧
      (∀ k < offset image.tbssEnd image.tdataBegin,
        mem' (threadPointer image.imageEnd hartid + BitVec.ofNat 64 k) = tlsBytes mem image k) ∧
      ∀ a, a < threadPointer image.imageEnd hartid ∨ stackPointer image.imageEnd hartid ≤ a →
        mem' a = mem a := by
  obtain ⟨behind, size⟩ := region_bounds room
  have bound := (stackPointer image.imageEnd hartid).isLt
  refine ⟨_, initTls_store mem image behind (by omega), fun k inside => ?_, fun a outside => ?_⟩
  · exact store_at inside (by omega)
  · refine store_outside ?_
    rw [BitVec.lt_def, BitVec.le_def] at outside
    have far := BitVec.toNat_sub a (threadPointer image.imageEnd hartid)
    change offset a (threadPointer image.imageEnd hartid) = _ at far
    have bound' := a.isLt
    omega

/-- Sixteen initial values, and sixteen zeros behind the end of the image. -/
def sampleImage : Image :=
  ⟨0x80001000, 0x80001010, 0x80001020, 0x80001010, by decide, by decide, by decide⟩

theorem initTls_region_sample : ∃ mem', initTls (fun a => a.setWidth 8)
    (threadPointer 0x80001010 0) 0x80001000 0x80001010 0x80001020 = some mem' ∧
      mem' 0x80001043 = 3 ∧ mem' 0x80001053 = 0 ∧ mem' 0x80001005 = 5 := by
  obtain ⟨mem', run, block, outside⟩ := initTls_region (fun a => a.setWidth 8) sampleImage
    (show sampleImage.imageEnd.toNat + 63 + ((0 : Word64).toNat + 1) * 2 ^ 17 < 2 ^ 64 by decide)
    (by decide)
  exact ⟨mem', run, (block 3 (by decide)).trans (by decide), (block 19 (by decide)).trans
    (by decide), (outside 0x80001005 (.inl (by decide))).trans (by decide)⟩

end Startup

end RiscvLab.Runtime
