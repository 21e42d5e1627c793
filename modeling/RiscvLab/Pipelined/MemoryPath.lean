import RiscvLab.Pipelined.MemoryUnits
import RiscvLab.Pipelined.Top

/-!
# The memory path of the pipelined core

The load unit, the store unit and `dmem` under an arbitrary sequence of accesses in
the M stage, one in each cycle. The store unit merges into what the load unit makes
of the word read, which is the word itself as long as the instruction writes no
register.
-/
namespace RiscvLab.Pipelined
open RiscvLab.Lib.ByteMemory RiscvLab.Lib.Run RiscvLab.Hdl RiscvLab.Rv32i

/-- What the instruction in M asks of the data memory. -/
inductive Access where
  | load (op : LoadOp) (address : Word)
  | store (op : StoreOp) (address value : Word)
  | none

namespace Access

/-- An access is aligned and inside `dmem`. -/
def Ok : Access → Prop
  | .load op address => Aligned op.size address ∧ (indexOf address).toNat < depth
  | .store op address _ => Aligned op.size address ∧ (indexOf address).toNat < depth
  | .none => True

/-- The byte-addressed memory after an access. -/
def apply (mem : Word → Byte) : Access → Word → Byte
  | .store op address value => storeBytes (n := 30) mem address op.size value
  | .load .. | .none => mem

end Access

namespace Core

/-- The registers of the M stage hold an instruction with this access, under the
control bits that decode gives it. -/
def Carries (s : Core) : Access → Prop
  | .load op address => s.controlregM = ⟨true, 0b01, false⟩ ∧ s.regM.aluSrcM = true ∧
      loadOp s.regM.funct3M = some op ∧ s.regM.aluResultM = address
  | .store op address value => s.controlregM = ⟨false, 0b00, true⟩ ∧ s.regM.aluSrcM = true ∧
      storeOp s.regM.funct3M = some op ∧ s.regM.aluResultM = address ∧ s.regM.writeDataM = value
  | .none => s.controlregM.memWriteM = false

end Core

section Run

variable (x : Nat → Undef) (stage : Nat → Core) (dmem : Ram)

/-- `dmem` before each cycle of a sequence of M stages. -/
def pathRun : Nat → Ram :=
  run (fun (cycle : Undef × Core) ram => Top.nextDmem cycle.1 ⟨cycle.2, ram⟩)
    (fun n => (x n, stage n)) dmem

/-- The byte array that a sequence of accesses makes of the initial memory. -/
def byteRun (accesses : Nat → Access) : Nat → Word → Byte :=
  run (fun access mem => access.apply mem) accesses (bytesOf (n := 30) dmem)

variable {x stage dmem}

/-- In every run `dmem` is driven by the contents of the M stage alone. -/
theorem topRun_dmem (imem : Ram) (rf : RegArray) (n : Nat) :
    (topRun imem x rf dmem n).dmem =
      pathRun x (fun n => (topRun imem x rf dmem n).core) dmem n := by
  induction n with
  | zero => rfl
  | succ n ih =>
    change Top.nextDmem (x n) (topRun imem x rf dmem n) = Top.nextDmem (x n) ⟨_, pathRun _ _ _ n⟩
    rw [← ih]

end Run

section Step

variable {x : Undef} {s : Core} {ram : Ram} {mem : Word → Byte}

/-- The words of a memory hold these bytes. -/
def HoldsBytes (ram : Ram) (mem : Word → Byte) : Prop :=
  ∀ index : BitVec 30, index.toNat < depth → ram index = wordAt (n := 30) mem index

theorem readDataM_eq {address : Word} (result : s.regM.aluResultM = address)
    (inside : (indexOf address).toNat < depth) :
    Top.readDataM x ⟨s, ram⟩ = ram (indexOf address) := by
  rw [Top.readDataM, result]
  exact if_pos inside

/-- The word a store sends to `dmem` is the merge into the word it addresses. -/
theorem writeDataM_eq {op : StoreOp} {address value : Word}
    (carries : s.Carries (.store op address value)) (ok : (Access.store op address value).Ok) :
    Top.writeDataM x ⟨s, ram⟩ =
      mergeBytes (ram (indexOf address)) (laneOf address) op.size value := by
  obtain ⟨control, -, function, result, data⟩ := carries
  have word : Top.readDataM x ⟨s, ram⟩ = ram (indexOf address) := readDataM_eq result ok.2
  -- the load unit is transparent for what writes no register
  have transparent : s.dataM x (ram (indexOf address)) = ram (indexOf address) := by
    rw [Core.dataM, control]
    exact load_transparent x _ _ _ _ _
  rw [Top.writeDataM, word, Core.storeOutM, transparent, control, result, data]
  exact store_unit x _ _ function ok.1

/-- One access keeps `dmem` in step with the bytes. -/
theorem nextDmem_holds {access : Access} (carries : s.Carries access) (ok : access.Ok)
    (holds : HoldsBytes ram mem) :
    HoldsBytes (Top.nextDmem x ⟨s, ram⟩) (access.apply mem) := by
  have next : Top.nextDmem x ⟨s, ram⟩ = ramWrite depth ram s.controlregM.memWriteM
      s.regM.aluResultM (Top.writeDataM x ⟨s, ram⟩) := rfl
  cases access with
  | load op address =>
    rw [next, carries.1]
    exact holds
  | none =>
    rw [next, show s.controlregM.memWriteM = false from carries]
    exact holds
  | store op address value =>
    obtain ⟨aligned, inside⟩ := ok
    have stored : Top.nextDmem x ⟨s, ram⟩ = Function.update ram (indexOf address)
        (mergeBytes (ram (indexOf address)) (laneOf address) op.size value) := by
      rw [next, writeDataM_eq carries ⟨aligned, inside⟩, carries.1, carries.2.2.2.1]
      exact if_pos (decide_eq_true inside)
    intro index within
    rw [stored, Access.apply, wordAt_store mem value index aligned, ← holds _ inside]
    by_cases same : index = indexOf address
    · rw [same, Function.update_self, if_pos rfl]
    · rw [Function.update_of_ne same, if_neg same]
      exact holds index within

/-- What a load hands to W is the value of its bytes. -/
theorem dataM_load {op : LoadOp} {address : Word} (carries : s.Carries (.load op address))
    (ok : (Access.load op address).Ok) (holds : HoldsBytes ram mem) :
    s.dataM x (Top.readDataM x ⟨s, ram⟩) = loadResult op mem address := by
  obtain ⟨control, source, function, result⟩ := carries
  obtain ⟨aligned, inside⟩ := ok
  rw [readDataM_eq result inside, Core.dataM, control, source, result,
    load_unit x _ function aligned, loadResult_word mem aligned, holds _ inside]

end Step

/-- Under every sequence of aligned accesses inside `dmem`, in any order and in
consecutive cycles, the memory path is a byte-addressed little-endian memory: after
each access `dmem` holds the bytes that the stores so far have left, and each load
hands W the extended bytes that are there. In a run of the core the sequence is that
of its own M stage. -/
theorem memory_path_refines (x : Nat → Undef) (stage : Nat → Core) (dmem : Ram)
    (accesses : Nat → Access) (carries : ∀ n, (stage n).Carries (accesses n))
    (ok : ∀ n, (accesses n).Ok) :
    (∀ n, HoldsBytes (pathRun x stage dmem n) (byteRun dmem accesses n)) ∧
    (∀ n op address, accesses n = .load op address → ∀ pcEnable instrF,
      ((stage n).clock (x n) pcEnable instrF
        (Top.readDataM (x n) ⟨stage n, pathRun x stage dmem n⟩)).regW.dataW =
      loadResult op (byteRun dmem accesses n) address) ∧
    (∀ imem rf, (∀ n, stage n = (topRun imem x rf dmem n).core) →
      ∀ n, (topRun imem x rf dmem n).dmem = pathRun x stage dmem n) := by
  have holds : ∀ n, HoldsBytes (pathRun x stage dmem n) (byteRun dmem accesses n) := by
    intro n
    induction n with
    | zero => exact fun index _ => (wordAt_bytesOf dmem index).symm
    | succ n ih => exact nextDmem_holds (carries n) (ok n) ih
  refine ⟨holds, fun n op address here pcEnable instrF => ?_, fun imem rf own n => ?_⟩
  · have carriesHere := carries n
    have okHere := ok n
    rw [here] at carriesHere okHere
    exact dataM_load carriesHere okHere (holds n)
  · rw [topRun_dmem, funext own]

/-- `sb` of 0x80 to address 1, then `lh` from address 0. -/
def bytePath : Nat → Access
  | 0 => .store .sb 1 0x80
  | 1 => .load .lh 0
  | _ => .none

def bytePathStage : Nat → Core
  | 0 => { Core.reset (fun _ => 0) with
      controlregM := ⟨false, 0b00, true⟩
      regM := ⟨1, 0, 0, 0, true, 0b000, 0x80⟩ }
  | 1 => { Core.reset (fun _ => 0) with
      controlregM := ⟨true, 0b01, false⟩
      regM := ⟨0, 0, 0, 0, true, 0b001, 0⟩ }
  | _ => Core.reset (fun _ => 0)

theorem bytePath_carries : ∀ n, (bytePathStage n).Carries (bytePath n)
  | 0 => ⟨rfl, rfl, rfl, rfl, rfl⟩
  | 1 => ⟨rfl, rfl, rfl, rfl⟩
  | _ + 2 => rfl

theorem bytePath_ok : ∀ n, (bytePath n).Ok
  | 0 => ⟨by decide, by decide⟩
  | 1 => ⟨by decide, by decide⟩
  | _ + 2 => trivial

/-- The half-word read in the cycle after the store has the new byte and its sign. -/
theorem memory_path_refines_byte :
    ((bytePathStage 1).clock default true 0 (Top.readDataM default ⟨bytePathStage 1,
      pathRun (fun _ => default) bytePathStage (fun _ => 0x11223344) 1⟩)).regW.dataW =
      0xFFFF8044 := by
  have path := memory_path_refines (fun _ => default) bytePathStage (fun _ => 0x11223344) bytePath
    bytePath_carries bytePath_ok
  exact (path.2.1 1 .lh 0 rfl true 0).trans (by decide +kernel)

end RiscvLab.Pipelined
