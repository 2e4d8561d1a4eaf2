import Yacl.Utils.Transpose.Sse
import Yacl.Utils.Transpose.Avx

/-!
# Bit matrix transposition

The functions of `yacl/utils/matrix_utils.cc`. There are three implementations for a matrix of 128
rows of 128 bits, and two for 128 rows of eight such blocks; `MatrixTranspose128` and
`MatrixTranspose128x1024` select one, when they are compiled and when they are started.

All of them **transpose** (`Transposes`, `TransposesBlocks`): bit `c` of row `r` of the result is
bit `r` of row `c`. This alone makes them agree and undo themselves (`Transposes.eq`,
`Transposes.involutive`). `AvxTranspose128x1024` is commented out in the source.
-/

open Bits Loop Reindex

namespace Yacl

/-! ### What a transposition is -/

/-- The function transposes a matrix of 128 rows of 128 bits. -/
def Transposes (f : Matrix128 → Matrix128) : Prop :=
  ∀ m r c, r < 128 → c < 128 → (f m r).getLsbD c = (m c).getLsbD r

/-- The function transposes the eight blocks of a matrix of 128 rows of 1024 bits. -/
def TransposesBlocks (f : Matrix128x1024 → Matrix128x1024) : Prop :=
  ∀ m r c i, r < 128 → c < 128 → i < 8 → (f m r i).getLsbD c = (m c i).getLsbD r

variable {f : Matrix128 → Matrix128} {r : ℕ}

theorem Transposes.eq {g : Matrix128 → Matrix128} (hf : Transposes f) (hg : Transposes g)
    (m : Matrix128) (hr : r < 128) : f m r = g m r := by
  refine BitVec.eq_of_getLsbD_eq fun c hc => ?_
  rw [hf m r c hr hc, hg m r c hr hc]

theorem Transposes.involutive (hf : Transposes f) (m : Matrix128) (hr : r < 128) :
    f (f m) r = m r := by
  refine BitVec.eq_of_getLsbD_eq fun c hc => ?_
  rw [hf (f m) r c hr hc, hf m c r hc hr]

theorem TransposesBlocks.eq {f g : Matrix128x1024 → Matrix128x1024} (hf : TransposesBlocks f)
    (hg : TransposesBlocks g) (m : Matrix128x1024) {i : ℕ} (hr : r < 128) (hi : i < 8) :
    f m r i = g m r i := by
  refine BitVec.eq_of_getLsbD_eq fun c hc => ?_
  rw [hf m r c i hr hc hi, hg m r c i hr hc hi]

theorem TransposesBlocks.involutive {f : Matrix128x1024 → Matrix128x1024} (hf : TransposesBlocks f)
    (m : Matrix128x1024) {i : ℕ} (hr : r < 128) (hi : i < 8) : f (f m) r i = m r i := by
  refine BitVec.eq_of_getLsbD_eq fun c hc => ?_
  rw [hf (f m) r c i hr hc hi, hf m c r i hc hr hi]

theorem Transposes.blocks (hf : Transposes f) {F : Matrix128x1024 → Matrix128x1024}
    (hF : ∀ m r i, i < 8 → F m r i = f (fun r => m r i) r) : TransposesBlocks F := by
  intro m r c i hr hc hi
  rw [hF m r i hi, hf _ r c hr hc]

/-! ### The implementations -/

/-- `EklundhTranspose128x1024`, the same for the rows of `block` and of `uint128_t`. -/
def eklundhTranspose128x1024 (inout : Matrix128x1024) : Matrix128x1024 :=
  iterLoop 8 (fun i inout =>
    let sub : Matrix128 := fun j => inout j i
    setBlocks inout i (eklundhTranspose128 sub)) inout

theorem transposes_of_represents {ws : List ℕ} (hws : ws.Nodup) (hall : ∀ i < 7, i ∈ ws)
    (hf : ∀ {m A}, Represents m A →
      Represents (f m) (reindexOn (fun x => x.1 < 128) (exchAll ws) A)) :
    Transposes f := by
  intro m r c hr hc
  have hA : Represents m fun x => (m x.1).getLsbD x.2 := fun r c _ => rfl
  rw [hf hA r c hc, reindexOn_of_mem (by exact hr), exchAll_eq_swap hws hall hr hc]

theorem transposes_eklundhTranspose128 : Transposes eklundhTranspose128 :=
  transposes_of_represents (by decide) (by decide) eklundhTranspose128_represents

theorem transposes_avxTranspose128 : Transposes avxTranspose128 :=
  transposes_of_represents (by decide) (by decide) avxTranspose128_represents

theorem transposes_sseTranspose128 : Transposes sseTranspose128 :=
  fun m _ _ hr hc => sseTranspose128_getLsbD m hr hc

theorem transposesBlocks_eklundhTranspose128x1024 : TransposesBlocks eklundhTranspose128x1024 :=
  transposes_eklundhTranspose128.blocks fun m r _ hi => iterLoop_setBlocks (fun _ _ => rfl) m r hi

theorem transposesBlocks_sseTranspose128x1024 : TransposesBlocks sseTranspose128x1024 :=
  transposes_sseTranspose128.blocks fun m r _ hi => sseTranspose128x1024_eq m r hi

/-- The implementations for blocks of 128 bits. -/
def variants128 : List (Matrix128 → Matrix128) :=
  [eklundhTranspose128, sseTranspose128, avxTranspose128]

/-- The implementations for rows of eight blocks. -/
def variants128x1024 : List (Matrix128x1024 → Matrix128x1024) :=
  [eklundhTranspose128x1024, sseTranspose128x1024]

theorem transposes_of_mem_variants128 : ∀ f ∈ variants128, Transposes f := by
  simpa [variants128] using ⟨transposes_eklundhTranspose128, transposes_sseTranspose128,
    transposes_avxTranspose128⟩

theorem transposesBlocks_of_mem_variants128x1024 :
    ∀ f ∈ variants128x1024, TransposesBlocks f := by
  simpa [variants128x1024] using ⟨transposesBlocks_eklundhTranspose128x1024,
    transposesBlocks_sseTranspose128x1024⟩

/-- **All implementations transpose**; so they agree, and each undoes itself. -/
theorem variants_transpose :
    (∀ f ∈ variants128, Transposes f ∧ (∀ g ∈ variants128, ∀ m, ∀ r < 128, f m r = g m r) ∧
      ∀ m, ∀ r < 128, f (f m) r = m r) ∧
    ∀ f ∈ variants128x1024, TransposesBlocks f ∧
      (∀ g ∈ variants128x1024, ∀ m, ∀ r < 128, ∀ i < 8, f m r i = g m r i) ∧
      ∀ m, ∀ r < 128, ∀ i < 8, f (f m) r i = m r i := by
  refine ⟨fun f hf => ?_, fun f hf => ?_⟩
  · have htranspose := transposes_of_mem_variants128 f hf
    exact ⟨htranspose, fun g hg m r hr => htranspose.eq (transposes_of_mem_variants128 g hg) m hr,
      fun m r hr => htranspose.involutive m hr⟩
  · have htranspose := transposesBlocks_of_mem_variants128x1024 f hf
    exact ⟨htranspose, fun g hg m r hr i hi =>
      htranspose.eq (transposesBlocks_of_mem_variants128x1024 g hg) m hr hi,
      fun m r hr i hi => htranspose.involutive m hr hi⟩

/-! ### The selection -/

/-- What the selection of the implementation depends on: the macro `YACL_ENABLE_BMI2` and
`kCPUSupportsSSE2`. -/
structure Platform where
  /-- `YACL_ENABLE_BMI2` is defined. -/
  enableBmi2 : Bool
  /-- `kCPUSupportsSSE2`. -/
  cpuSupportsSse2 : Bool
  deriving DecidableEq, Repr

/-- `MatrixTranspose128`. -/
def matrixTranspose128 (pf : Platform) (inout : Matrix128) : Matrix128 :=
  if pf.enableBmi2 then avxTranspose128 inout
  else if pf.cpuSupportsSse2 then sseTranspose128 inout
  else eklundhTranspose128 inout

theorem transposes_matrixTranspose128 (pf : Platform) : Transposes (matrixTranspose128 pf) := by
  intro m r c hr hc
  rw [matrixTranspose128]
  split
  · exact transposes_avxTranspose128 m r c hr hc
  split
  · exact transposes_sseTranspose128 m r c hr hc
  · exact transposes_eklundhTranspose128 m r c hr hc

end Yacl
