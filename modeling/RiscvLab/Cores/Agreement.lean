import RiscvLab.Pipelined.Commit
import RiscvLab.Single.Refinement

/-!
# The two cores agree

On a program that both cores support, the pipeline has one cycle after instruction `K` came
to E the registers and the data memory that the single-cycle core has in cycle `K`.
-/
namespace RiscvLab.Cores
open RiscvLab.Lib.ByteMemory RiscvLab.Hdl RiscvLab.Rv32i

section Supported

/-- What both cores ask of an instruction that the sequential machine reaches. -/
structure Supported (imem : Ram) (a : Arch) : Prop extends Single.Supported imem a where
  aligned : Aligned 4 a.pc
  noAuipc : ∀ i, fetch imem a = some i → Pipelined.isAuipc i = false

variable {imem : Ram} {init a : Arch} {i : Instr}

/-- The data memory of the pipeline is the larger one. -/
theorem Supported.pipelined (ok : Supported imem a) : Pipelined.Supported imem a := by
  obtain ⟨i, here, -, data, -⟩ := ok.legal
  refine ⟨ok.aligned, ok.inside, i, here, ok.noAuipc i here, fun size address accessed => ?_⟩
  obtain ⟨aligned, inside⟩ := data size address accessed
  exact ⟨aligned, Nat.lt_trans inside (by decide)⟩

theorem Supported.even (ok : Supported imem a) (here : fetch imem a = some i) : JalrEven a i := by
  obtain ⟨j, fetched, even, -⟩ := ok.legal
  cases fetched.symm.trans here
  exact even

theorem supportedTo {K : Nat} (supported : ∀ k < K, Supported imem (seqRun imem init k))
    (inside : (indexOf (seqRun imem init K).pc).toNat < Pipelined.depth) :
    Pipelined.SupportedTo imem init K :=
  ⟨fun k before => (supported k before).pipelined,
    fun k before _ here => (supported k before).even here, inside⟩

end Supported

section Agreement

variable {imem : Ram} {rf : RegArray} {dmem : Ram} {K : Nat}

/-- Both cores, started alike, go through the same states of registers and data memory, as far
as both have it, in its first 1029 words: the single-cycle core in cycle `K`, the pipeline in
the cycle behind the one in which instruction `K` is in E. What leads there is supported by
both: aligned targets and data inside the smaller memories, even sums of `jalr`, no `auipc`,
and `TopByteEven`. -/
theorem cores_agree
    (supported : ∀ k < K, Supported imem (seqRun imem (Single.seqInit rf dmem) k))
    (inside : (indexOf (seqRun imem (Single.seqInit rf dmem) K).pc).toNat < Pipelined.depth)
    (x x' : Nat → Undef) :
    (∃ xd, (Pipelined.topRun imem x' rf dmem
        (Pipelined.executeCycle imem (Single.seqInit rf dmem) K)).core.Holds xd
      (imem (wordIndex (Single.topRun imem x rf dmem K).core.pc))
      (Single.topRun imem x rf dmem K).core.pc) ∧
    (∀ r, regRead (Pipelined.topRun imem x' rf dmem
        (Pipelined.executeCycle imem (Single.seqInit rf dmem) K + 1)).core.rfNegedge r =
      regRead (Single.topRun imem x rf dmem K).core.rf r) ∧
    (∀ index : BitVec 30, index.toNat < Single.dmemDepth →
      (Pipelined.topRun imem x' rf dmem
          (Pipelined.executeCycle imem (Single.seqInit rf dmem) K + 1)).dmem index =
        (Single.topRun imem x rf dmem K).dmem index) := by
  have single := Single.represents_after x (fun k before => (supported k before).toSupported)
  have reached : Pipelined.SupportedTo imem (Pipelined.seqInit rf dmem) K :=
    supportedTo supported inside
  obtain ⟨holds, regs, mem⟩ := Pipelined.executeCycle_commits reached x'
  refine ⟨?_, fun r => ?_, fun index within => ?_⟩
  · rw [single.pc]
    exact holds
  · rw [regRead_eq (Single.topRun imem x rf dmem K).core.rf, single.regs]
    exact regs r
  · rw [single.mem index within]
    exact mem index (Nat.lt_trans within (by decide))

open Pipelined in
/-- On the jump through `x1 = 8` the cores agree after four instructions. -/
theorem cores_agree_even :
    regRead (topRun (jalrProgram false) (fun _ => default) (fun _ => 0) (fun _ => 0)
      (executeCycle (jalrProgram false) zeroInit 4 + 1)).core.rfNegedge =
    regRead (Single.topRun (jalrProgram false) (fun _ => default) (fun _ => 0) (fun _ => 0)
      4).core.rf := by
  refine funext (cores_agree (K := 4) (fun k before => ?_) (by decide +kernel) _ _).2.1
  have bound : k < 6 := by omega
  have legal := jalrProgram_legal false k bound
  have sound := jalrProgram_supported false k
  refine ⟨⟨?_, _, legal, jalrProgram_even k _ legal, ?_, ?_⟩, sound.aligned, ?_⟩
  · exact sound.inside
  · match k, before with
    | 0, _ | 1, _ | 2, _ | 3, _ => intro _ _ accesses; cases accesses
  · intro r1 r2 imm store
    match k, before with
    | 0, _ | 1, _ | 2, _ | 3, _ => cases store
  · intro i here
    cases legal.symm.trans here
    match k, before with
    | 0, _ | 1, _ | 2, _ | 3, _ => rfl

end Agreement

end RiscvLab.Cores
