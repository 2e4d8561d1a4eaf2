import Yacl.Utils.Transpose.Eklundh

/-!
# Bit matrix transposition: AVX2

The model of `AvxTranspose128` of `yacl/utils/matrix_utils.cc`. The `128` rows lie in `64`
registers of `256` bits, register `q` with the rows `2 * q` and `2 * q + 1`. The templates of
the source unroll loops over pairs of registers; their parameters are arguments here, and a
pointer `inOut` into the registers is an offset.

A pair of registers exchanges bit `b` of the row index with that of the column index, and for
`b = 1` bit `0` as well (`avxPair_pairRep`). The pairs of one template instance form a butterfly
network on sixteen registers (`avxTransposeBlockIter2_represents`).
-/

open Bits Loop Reindex

namespace Yacl

/-- `__m256i`. -/
abbrev M256 := BitVec 256

/-! ### The instructions -/

/-- `_mm256_slli_epi16` and `_mm256_slli_epi64`: every lane is shifted left by `k`. -/
def slliEpi (lane : ℕ) (v : M256) (k : ℕ) : M256 :=
  bitsOf 256 fun i => decide (k ≤ i % lane) && v.getLsbD (i - k)

/-- `_mm256_srli_epi16` and `_mm256_srli_epi64`: every lane is shifted right by `k`. -/
def srliEpi (lane : ℕ) (v : M256) (k : ℕ) : M256 :=
  bitsOf 256 fun i => decide (i % lane + k < lane) && v.getLsbD (i + k)

/-- `_mm256_set1_epi16` and `_mm256_set1_epi64x`. -/
def set1Epi {lane : ℕ} (w : BitVec lane) : M256 :=
  bitsOf 256 fun i => w.getLsbD (i % lane)

/-- `_mm256_permute2x128_si256`, for selectors that zero neither half: the low two bits of
each hexadecimal digit of `imm` select a half of `x` or `y`. -/
def permute2x128 (x y : M256) (imm : ℕ) : M256 :=
  bitsOf 256 fun i =>
    let sel := if i < 128 then imm % 4 else imm / 16 % 4
    (if sel < 2 then x else y).getLsbD (128 * (sel % 2) + i % 128)

/-- `_mm256_unpacklo_epi64`. -/
def unpackloEpi64 (x y : M256) : M256 :=
  bitsOf 256 fun i => if i % 128 < 64 then x.getLsbD i else y.getLsbD (i - 64)

/-- `_mm256_unpackhi_epi64`. -/
def unpackhiEpi64 (x y : M256) : M256 :=
  bitsOf 256 fun i => if i % 128 < 64 then x.getLsbD (i + 64) else y.getLsbD i

/-! ### The templates -/

/-- The `mask` of `avx_transpose_block_iter1`: alternating `2 ^ b` zeros and `2 ^ b` ones. -/
def blockMask (b : ℕ) : BitVec 64 :=
  iterLoop (5 - b) (fun t mask => mask ^^^ (mask >>> 2 ^ (4 - t))) (BitVec.allOnes 64 <<< 32)

/-- The masked exchange between two registers: the bits of `x` that `mask` selects trade places
with the bits `k` below them in `y`. -/
def maskedSwap (lane k : ℕ) (mask x y : M256) : M256 × M256 :=
  let diff := (x ^^^ slliEpi lane y k) &&& mask
  (x ^^^ diff, y ^^^ srliEpi lane diff k)

/-- The handling of the blocks of two by two bits in `avx_transpose_block_iter1`, each within a
single register. -/
def avxTransposeTwoByTwo (x y : M256) : M256 × M256 :=
  let u := permute2x128 x y 0x20
  let v := permute2x128 x y 0x31
  let (u, v) := maskedSwap 16 1 (set1Epi 0xaaaa#16) u v
  (permute2x128 u v 0x20, permute2x128 u v 0x31)

/-- What `avx_transpose_block_iter1` does with the registers `x` and `y`. -/
def avxPair (b : ℕ) (x y : M256) : M256 × M256 :=
  if b = 6 then (unpackloEpi64 x y, unpackhiEpi64 x y)
  else
    let (x, y) := if b = 1 then avxTransposeTwoByTwo x y else (x, y)
    maskedSwap 64 (2 ^ b) (set1Epi (blockMask b)) x y

/-- `avx_transpose_block_iter1` without the recursive call. -/
def avxTransposeBlockStep (b inOut j : ℕ) (s : ℕ → M256) : ℕ → M256 :=
  let p := inOut + j / 2
  let q := inOut + j / 2 + 2 ^ (b - 1)
  let out := avxPair b (s p) (s q)
  Function.update (Function.update s p out.1) q out.2

/-- `avx_transpose_block_iter1`; the recursion of the template handles the largest `j`
first. -/
def avxTransposeBlockIter1 (b blockRowsShift inOut : ℕ) (s : ℕ → M256) : ℕ → M256 :=
  let count := 2 ^ b / 2 ^ blockRowsShift
  iterLoop count (fun t s =>
    avxTransposeBlockStep b inOut ((count - 1 - t) * 2 ^ blockRowsShift) s) s

/-- `avx_transpose_block_iter2`. -/
def avxTransposeBlockIter2 (b blockRowsShift nRows inOut : ℕ) (s : ℕ → M256) : ℕ → M256 :=
  let matSize := 2 ^ (b + 1)
  iterLoop (nRows / matSize) (fun t s =>
    avxTransposeBlockIter1 b blockRowsShift (inOut + t * matSize / 2) s) s

/-- `avx_transpose_block`. -/
def avxTransposeBlock (b matSizeShift blockRowsShift matRowsShift inOut : ℕ) (s : ℕ → M256) :
    ℕ → M256 :=
  iterLoop (matSizeShift - b) (fun t s =>
    avxTransposeBlockIter2 (b + t) blockRowsShift (2 ^ (matRowsShift + matSizeShift)) inOut s) s

/-- `avx_transpose<3>`, with `avxBlockShift = 4`. -/
def avxTranspose3 (s : ℕ → M256) : ℕ → M256 :=
  iterLoop 4 (fun i s => avxTransposeBlock 1 3 1 2 (i * 16) s) s

/-- `avx_transpose<7>`, with `avxBlockShift = 4` and `blockSizeShift = 3`. -/
def avxTranspose7 (s : ℕ → M256) : ℕ → M256 :=
  iterLoop (2 ^ 2) (fun i s => avxTransposeBlock 3 7 3 0 i s) (avxTranspose3 s)

/-- `AvxTranspose128`: the array is read and written as registers. -/
def avxTranspose128 (inOut : Matrix128) : Matrix128 :=
  let s := avxTranspose7 fun q => inOut (2 * q + 1) ++ inOut (2 * q)
  fun r => (s (r / 2)).extractLsb' (128 * (r % 2)) 128

/-! ### One pair of registers -/

/-- The two registers with the rows of `p` and `q` hold the bits of the matrix `A`. -/
def PairRep (p q : ℕ) (x y : M256) (A : ℕ × ℕ → Bool) : Prop :=
  ∀ r c, c < 128 →
    (r / 2 = p → x.getLsbD (128 * (r % 2) + c) = A (r, c)) ∧
    (r / 2 = q → y.getLsbD (128 * (r % 2) + c) = A (r, c))

/-- The bits of `x` with bit `b` of their position set trade places with the bits `2 ^ b` below
them in `y`. -/
def Exchanged (b : ℕ) (x y x' y' : M256) : Prop :=
  ∀ i < 256, x'.getLsbD i = (if i.testBit b then y.getLsbD (i - 2 ^ b) else x.getLsbD i) ∧
    y'.getLsbD i = if i.testBit b then y.getLsbD i else x.getLsbD (i + 2 ^ b)

theorem lane_spec : ∀ i < 256,
    (∀ b < 6, (i.testBit b = true → 2 ^ b ≤ i % 64 ∧ (i + 2 ^ b).testBit b = false) ∧
      (i.testBit b = false →
        i % 64 + 2 ^ b < 64 ∧ i + 2 ^ b < 256 ∧ (i + 2 ^ b).testBit b = true)) ∧
    (i.testBit 0 = true → 1 ≤ i % 16) ∧ (i.testBit 0 = false → i % 16 + 1 < 16) := by
  decide +kernel

theorem blockMask_spec : ∀ b < 6, ∀ i < 64, (blockMask b).getLsbD i = i.testBit b := by
  decide +kernel

variable {lane : ℕ}

theorem getLsbD_slliEpi {k i : ℕ} (v : M256) (hi : i < 256) (h : k ≤ i % lane) :
    (slliEpi lane v k).getLsbD i = v.getLsbD (i - k) := by
  rw [slliEpi, getLsbD_bitsOf, decide_eq_true hi, decide_eq_true h, Bool.true_and, Bool.true_and]

variable {b : ℕ}

/-- **The masked exchange**, for a lane in which bit `b` of the position can be flipped. -/
theorem maskedSwap_exchanged {mask : M256} (hb : b < 6)
    (hmask : ∀ i < 256, mask.getLsbD i = i.testBit b)
    (hset : ∀ i < 256, i.testBit b = true → 2 ^ b ≤ i % lane)
    (hclear : ∀ i < 256, i.testBit b = false → i % lane + 2 ^ b < lane) (x y : M256) :
    Exchanged b x y (maskedSwap lane (2 ^ b) mask x y).1 (maskedSwap lane (2 ^ b) mask x y).2 := by
  intro i hi
  obtain ⟨hup, hdown⟩ := (lane_spec i hi).1 b hb
  rw [maskedSwap]
  by_cases hbit : i.testBit b = true
  · rw [if_pos hbit, if_pos hbit]
    constructor
    · rw [BitVec.getLsbD_xor, BitVec.getLsbD_and, BitVec.getLsbD_xor, hmask i hi, hbit,
        getLsbD_slliEpi y hi (hset i hi hbit), Bool.and_true, ← Bool.xor_assoc, Bool.xor_self,
        Bool.false_xor]
    · -- the partner of the bit is not selected by the mask
      have hpartner : mask.getLsbD (i + 2 ^ b) = false := by
        by_cases hlt : i + 2 ^ b < 256
        · rw [hmask _ hlt, (hup hbit).2]
        · exact BitVec.getLsbD_of_ge _ _ (by omega)
      simp [srliEpi, hpartner]
  · have hbit' : i.testBit b = false := by simpa using hbit
    obtain ⟨-, hlt, hflip⟩ := hdown hbit'
    constructor
    · simp [hmask i hi, hbit']
    · rw [BitVec.getLsbD_xor, srliEpi, getLsbD_bitsOf, BitVec.getLsbD_and, BitVec.getLsbD_xor,
        hmask _ hlt, getLsbD_slliEpi y hlt (hset _ hlt hflip)]
      grind

theorem getLsbD_set1Epi (w : BitVec lane) {i : ℕ} (hi : i < 256) :
    (set1Epi w).getLsbD i = w.getLsbD (i % lane) := by
  rw [set1Epi, getLsbD_bitsOf, decide_eq_true hi, Bool.true_and]

theorem maskedSwap_blockMask (hb : b < 6) (x y : M256) :
    Exchanged b x y (maskedSwap 64 (2 ^ b) (set1Epi (blockMask b)) x y).1
      (maskedSwap 64 (2 ^ b) (set1Epi (blockMask b)) x y).2 := by
  refine maskedSwap_exchanged hb (fun i hi => ?_)
    (fun i hi h => (((lane_spec i hi).1 b hb).1 h).1)
    (fun i hi h => (((lane_spec i hi).1 b hb).2 h).1) x y
  rw [getLsbD_set1Epi _ hi, blockMask_spec b hb _ (Nat.mod_lt _ (by omega)),
    show 64 = 2 ^ 6 from rfl, Nat.testBit_mod_two_pow, decide_eq_true hb, Bool.true_and]

theorem unpackEpi64_exchanged (x y : M256) :
    Exchanged 6 x y (unpackloEpi64 x y) (unpackhiEpi64 x y) := by
  intro i hi
  have hbit : i.testBit 6 = true ↔ ¬i % 128 < 64 := by
    rw [Nat.testBit_eq_decide_div_mod_eq, decide_eq_true_iff]
    omega
  rw [unpackloEpi64, unpackhiEpi64, getLsbD_bitsOf, getLsbD_bitsOf, decide_eq_true hi]
  by_cases h : i % 128 < 64
  · rw [if_pos h, if_neg (by simpa [hbit] using h), if_pos h, if_neg (by simpa [hbit] using h)]
    exact ⟨rfl, rfl⟩
  · rw [if_neg h, if_pos (hbit.mpr h), if_neg h, if_pos (hbit.mpr h)]
    exact ⟨rfl, rfl⟩

variable {c : ℕ}

theorem testBit_position (hb : b < 7) (hc : c < 128) (e : ℕ) :
    (128 * e + c).testBit b = c.testBit b := by
  rw [show 128 = 2 ^ 7 from rfl, Nat.testBit_two_pow_mul_add _ hc, if_pos hb]

theorem xor_two_pow_div (hb : 1 ≤ b) (r : ℕ) :
    (r ^^^ 2 ^ b) / 2 = r / 2 ^^^ 2 ^ (b - 1) ∧ (r ^^^ 2 ^ b) % 2 = r % 2 := by
  obtain ⟨b, rfl⟩ := Nat.exists_eq_add_of_le' hb
  constructor
  · rw [Nat.xor_div_two, Nat.add_sub_cancel, Nat.pow_succ, Nat.mul_div_cancel _ (by omega)]
  · rw [← Nat.pow_one 2, Nat.xor_mod_two_pow, Nat.pow_one, Nat.pow_succ, Nat.mul_mod_left,
      Nat.xor_zero]

variable {p q : ℕ} {x y : M256} {A : ℕ × ℕ → Bool}

theorem Exchanged.pairRep (hb1 : 1 ≤ b) (hb : b < 7) (hp : p.testBit (b - 1) = false)
    (hq : q = p ^^^ 2 ^ (b - 1)) {x' y' : M256} (h : Exchanged b x y x' y')
    (hA : PairRep p q x y A) : PairRep p q x' y' (A ∘ exch b) := by
  have hback : q ^^^ 2 ^ (b - 1) = p := by rw [hq, Nat.xor_assoc, Nat.xor_self, Nat.xor_zero]
  have hqbit : q.testBit (b - 1) = true := by
    rw [hq, Nat.testBit_xor, Nat.testBit_two_pow_self, hp]
    rfl
  have hrow : ∀ r, r.testBit b = (r / 2).testBit (b - 1) := by
    intro r
    rw [← Nat.testBit_succ, Nat.succ_eq_add_one, Nat.sub_add_cancel hb1]
  intro r c hc
  have hi : 128 * (r % 2) + c < 256 := by omega
  obtain ⟨hx, hy⟩ := h _ hi
  obtain ⟨hdiv, hmod⟩ := xor_two_pow_div hb1 r
  rw [testBit_position hb hc] at hx hy
  rw [hx, hy, Function.comp_apply, exch, hrow r]
  constructor
  · intro hr
    rw [hr, hp]
    by_cases hbit : c.testBit b = true
    · obtain ⟨hle, hsub, -⟩ := testBit_true_spec b hb c hc hbit
      rw [if_pos hbit, if_neg (by simp [hbit]), ← hsub, Nat.add_sub_assoc hle, ← hmod]
      exact (hA _ _ (lt_of_le_of_lt (Nat.sub_le _ _) hc)).2 (by rw [hdiv, hr, hq])
    · rw [if_neg hbit, if_pos (by simpa using hbit)]
      exact (hA r c hc).1 hr
  · intro hr
    rw [hr, hqbit]
    by_cases hbit : c.testBit b = true
    · rw [if_pos hbit, if_pos hbit.symm]
      exact (hA r c hc).2 hr
    · obtain ⟨hlt, hadd, -⟩ := testBit_false_spec b hb c hc (by simpa using hbit)
      rw [if_neg hbit, if_neg (by simpa using hbit), ← hadd, Nat.add_assoc, ← hmod]
      exact (hA _ _ hlt).1 (by rw [hdiv, hr, hback])

theorem getLsbD_permute2x128 (x y : M256) (hc : c < 128) :
    (permute2x128 x y 0x20).getLsbD (128 * 0 + c) = x.getLsbD c ∧
    (permute2x128 x y 0x31).getLsbD (128 * 0 + c) = x.getLsbD (128 + c) ∧
    (permute2x128 x y 0x20).getLsbD (128 * 1 + c) = y.getLsbD c ∧
    (permute2x128 x y 0x31).getLsbD (128 * 1 + c) = y.getLsbD (128 + c) := by
  have hc' : c < 256 ∧ 128 + c < 256 := by omega
  simp only [permute2x128, getLsbD_bitsOf]
  simp [hc, hc', Nat.mod_eq_of_lt hc]

/-- **The blocks of two by two** of one register `X` exchange bit `0`. The lower half of the
register is half `t` of `u`, and the upper half is half `t` of `v`. -/
theorem Exchanged.twoByTwo {u v u' v' : M256} (h : Exchanged 0 u v u' v') {t : ℕ} (ht : t < 2)
    {X X' : M256} (hu : ∀ c < 128, u.getLsbD (128 * t + c) = X.getLsbD c)
    (hv : ∀ c < 128, v.getLsbD (128 * t + c) = X.getLsbD (128 + c))
    (hu' : ∀ c < 128, X'.getLsbD c = u'.getLsbD (128 * t + c))
    (hv' : ∀ c < 128, X'.getLsbD (128 + c) = v'.getLsbD (128 * t + c)) {r : ℕ}
    (hA : ∀ r', r' / 2 = r / 2 → ∀ c < 128, X.getLsbD (128 * (r' % 2) + c) = A (r', c))
    (hc : c < 128) : X'.getLsbD (128 * (r % 2) + c) = A (exch 0 (r, c)) := by
  have hflip : (r ^^^ 2 ^ 0) / 2 = r / 2 ∧ (r ^^^ 2 ^ 0) % 2 = 1 - r % 2 := by
    constructor
    · rw [Nat.xor_div_two]
      simp
    · rcases Nat.mod_two_eq_zero_or_one r with he | he <;>
        rw [← Nat.pow_one 2, Nat.xor_mod_two_pow, he] <;> rfl
  have hrow : r.testBit 0 = decide (r % 2 = 1) := by simp
  obtain ⟨hlow, hup⟩ := h (128 * t + c) (by omega)
  rw [testBit_position (by omega) hc] at hlow hup
  rw [exch, hrow]
  by_cases hb : c.testBit 0 = true
  · obtain ⟨hle, hsub, -⟩ := testBit_true_spec 0 (by omega) c hc hb
    rw [if_pos hb] at hlow hup
    rcases Nat.mod_two_eq_zero_or_one r with he | he
    · rw [he, Nat.zero_add, hu' c hc, hlow, Nat.add_sub_assoc hle,
        hv _ (lt_of_le_of_lt (Nat.sub_le _ _) hc), if_neg (by simp [hb]), ← hsub,
        ← hA _ hflip.1 _ (lt_of_le_of_lt (Nat.sub_le _ _) hc), hflip.2, he]
    · rw [he, hv' c hc, hup, hv c hc, if_pos (by simp [hb]), ← hA r rfl c hc, he]
  · obtain ⟨hlt, hadd, -⟩ := testBit_false_spec 0 (by omega) c hc (by simpa using hb)
    rw [if_neg hb] at hlow hup
    rcases Nat.mod_two_eq_zero_or_one r with he | he
    · rw [he, Nat.zero_add, hu' c hc, hlow, hu c hc, if_pos (by simpa using hb), ← hA r rfl c hc,
        he, Nat.zero_add]
    · rw [he, hv' c hc, hup, Nat.add_assoc, hu _ hlt, if_neg (by simpa using hb), ← hadd,
        ← hA _ hflip.1 _ hlt, hflip.2, he, Nat.zero_add]

/-- **The blocks of two by two** exchange bit `0`, in both registers. -/
theorem avxTransposeTwoByTwo_pairRep (hA : PairRep p q x y A) :
    PairRep p q (avxTransposeTwoByTwo x y).1 (avxTransposeTwoByTwo x y).2 (A ∘ exch 0) := by
  have hmask : ∀ i < 256, (set1Epi 0xaaaa#16).getLsbD i = i.testBit 0 := by
    intro i hi
    rw [getLsbD_set1Epi _ hi,
      (by decide : ∀ j < 16, (0xaaaa#16).getLsbD j = j.testBit 0) _ (Nat.mod_lt _ (by omega)),
      show 16 = 2 ^ 4 from rfl, Nat.testBit_mod_two_pow, decide_eq_true (by omega), Bool.true_and]
  have hswap := maskedSwap_exchanged (by omega) hmask
    (fun i hi h => (lane_spec i hi).2.1 h) (fun i hi h => (lane_spec i hi).2.2 h)
    (permute2x128 x y 0x20) (permute2x128 x y 0x31)
  have hin := fun c (hc : c < 128) => getLsbD_permute2x128 x y hc
  rw [avxTransposeTwoByTwo]
  generalize maskedSwap 16 1 (set1Epi 0xaaaa#16) (permute2x128 x y 0x20)
    (permute2x128 x y 0x31) = uv at hswap ⊢
  obtain ⟨u, v⟩ := uv
  have hout := fun c (hc : c < 128) => getLsbD_permute2x128 u v hc
  intro r c hc
  constructor
  · intro hr
    refine hswap.twoByTwo (by omega) (fun c hc => (hin c hc).1) (fun c hc => (hin c hc).2.1)
      (fun c hc => ?_) (fun c hc => ?_) (fun r' hr' c hc => (hA r' c hc).1 (hr'.trans hr)) hc
    · simpa using (hout c hc).1
    · simpa using (hout c hc).2.2.1
  · intro hr
    refine hswap.twoByTwo (by omega) (fun c hc => (hin c hc).2.2.1)
      (fun c hc => (hin c hc).2.2.2) (fun c hc => ?_) (fun c hc => ?_)
      (fun r' hr' c hc => (hA r' c hc).2 (hr'.trans hr)) hc
    · simpa using (hout c hc).2.1
    · simpa using (hout c hc).2.2.2

/-- The bits that `avx_transpose_block_iter1` exchanges, in the order of their moves. -/
def levelBits (b : ℕ) : List ℕ := if b = 1 then [0, 1] else [b]

/-- **One pair of registers.** -/
theorem avxPair_pairRep (hb1 : 1 ≤ b) (hb : b < 7) (hp : p.testBit (b - 1) = false)
    (hq : q = p ^^^ 2 ^ (b - 1)) (hA : PairRep p q x y A) :
    PairRep p q (avxPair b x y).1 (avxPair b x y).2 (A ∘ exchAll (levelBits b)) := by
  by_cases h6 : b = 6
  · subst h6
    exact (unpackEpi64_exchanged x y).pairRep hb1 hb hp hq hA
  by_cases h1 : b = 1
  · subst h1
    exact (maskedSwap_blockMask (by omega) _ _).pairRep hb1 hb hp hq
      (avxTransposeTwoByTwo_pairRep hA)
  · rw [avxPair, if_neg h6, if_neg h1, levelBits, if_neg h1]
    exact (maskedSwap_blockMask (by omega) x y).pairRep hb1 hb hp hq hA

/-! ### All registers -/

/-- The registers hold the bit matrix `A`. -/
def RegsRepresent (s : ℕ → M256) (A : ℕ × ℕ → Bool) : Prop :=
  ∀ r c, c < 128 → (s (r / 2)).getLsbD (128 * (r % 2) + c) = A (r, c)

/-- A set of registers that is closed under flipping bit `b - 1`, and its rows. -/
theorem levelBits_closed (hb1 : 1 ≤ b) {P : ℕ → Prop} (hP : ∀ q, P q → P (q ^^^ 2 ^ (b - 1))) :
    ∀ w ∈ levelBits b, ∀ r, P (r / 2) → P ((r ^^^ 2 ^ w) / 2) := by
  have hb : ∀ r, P (r / 2) → P ((r ^^^ 2 ^ b) / 2) := by
    intro r hr
    rw [(xor_two_pow_div hb1 r).1]
    exact hP _ hr
  intro w hw r hr
  rw [levelBits] at hw
  split at hw
  · next h1 =>
    rcases List.mem_pair.mp hw with rfl | rfl
    · rwa [Nat.xor_div_two, show 2 ^ 0 / 2 = 0 from rfl, Nat.xor_zero]
    · exact h1 ▸ hb r hr
  · rw [List.mem_singleton.mp hw]
    exact hb r hr

variable {s : ℕ → M256}

theorem avxTransposeBlockStep_represents (hb1 : 1 ≤ b) (hb : b < 7) (inOut j : ℕ)
    (hp : (inOut + j / 2).testBit (b - 1) = false)
    (hq : inOut + j / 2 + 2 ^ (b - 1) = (inOut + j / 2) ^^^ 2 ^ (b - 1)) (hA : RegsRepresent s A) :
    RegsRepresent (avxTransposeBlockStep b inOut j s)
      (reindexOn (fun x => x.1 / 2 = inOut + j / 2 ∨ x.1 / 2 = inOut + j / 2 + 2 ^ (b - 1))
        (exchAll (levelBits b)) A) := by
  have hpair := avxPair_pairRep hb1 hb hp hq
    fun r c hc => ⟨fun hr => hr ▸ hA r c hc, fun hr => hr ▸ hA r c hc⟩
  intro r c hc
  rw [avxTransposeBlockStep]
  by_cases hr2 : r / 2 = inOut + j / 2 + 2 ^ (b - 1)
  · rw [reindexOn_of_mem (by exact .inr hr2), hr2, Function.update_self]
    exact (hpair r c hc).2 hr2
  by_cases hr1 : r / 2 = inOut + j / 2
  · rw [reindexOn_of_mem (by exact .inl hr1), Function.update_of_ne hr2, hr1,
      Function.update_self]
    exact (hpair r c hc).1 hr1
  · rw [Function.update_of_ne hr2, Function.update_of_ne hr1,
      reindexOn_of_notMem (by exact not_or.mpr ⟨hr1, hr2⟩)]
    exact hA r c hc

/-- The rows of the registers that the template instances with `blockRowsShift` handle from
`inOut` on: sixteen registers. -/
def BlockRows (blockRowsShift inOut : ℕ) (r : ℕ) : Prop :=
  ∃ k < 16, r / 2 = inOut + k * 2 ^ (blockRowsShift - 1)

/-- The arithmetic of a template instance: its pairs use up sixteen registers, the first
register of a pair has bit `b - 1` clear, and the sixteen are closed under flipping it. -/
def LevelOk (b rs nRows inOut : ℕ) : Prop :=
  1 ≤ rs ∧ rs ≤ b ∧ b < 7 ∧ nRows / 2 ^ (b + 1) * (2 * (2 ^ b / 2 ^ rs)) = 16 ∧
    (∀ k < 16, k.testBit (b - rs) = false → inOut + k * 2 ^ (rs - 1) < 128 ∧
      (inOut + k * 2 ^ (rs - 1)).testBit (b - 1) = false) ∧
    ∀ k < 16, ∃ k' < 16, (inOut + k * 2 ^ (rs - 1)) ^^^ 2 ^ (b - 1) = inOut + k' * 2 ^ (rs - 1)

instance (b rs nRows inOut : ℕ) : Decidable (LevelOk b rs nRows inOut) := by
  unfold LevelOk
  infer_instance

/-- **One template instance** exchanges its bits in the rows of its sixteen registers. -/
theorem avxTransposeBlockIter2_represents {rs nRows inOut : ℕ} (h : LevelOk b rs nRows inOut)
    (hA : RegsRepresent s A) :
    RegsRepresent (avxTransposeBlockIter2 b rs nRows inOut s)
      (reindexOn (fun x => BlockRows rs inOut x.1) (exchAll (levelBits b)) A) := by
  obtain ⟨hrs, hrb, hb, hn, hreg, -⟩ := h
  have hm : 2 ^ b / 2 ^ rs = 2 ^ (b - rs) := Nat.pow_div hrb (by omega)
  have hms : 2 ^ (b - rs) * 2 ^ (rs - 1) = 2 ^ (b - 1) := by
    rw [← pow_add]
    congr 1
    omega
  have hp : ∀ j a, inOut + j * 2 ^ (b + 1) / 2 + a * 2 ^ rs / 2 =
      inOut + (a + 2 * 2 ^ (b - rs) * j) * 2 ^ (rs - 1) := by
    intro j a
    have h1 : j * 2 ^ (b + 1) / 2 = j * (2 * 2 ^ (b - 1)) := by
      rw [← pow_succ', Nat.sub_add_cancel (by omega), pow_succ, ← Nat.mul_assoc,
        Nat.mul_div_cancel _ (by omega)]
    have h2 : a * 2 ^ rs / 2 = a * 2 ^ (rs - 1) := by
      obtain ⟨rs, rfl⟩ := Nat.exists_eq_add_of_le' hrs
      rw [pow_succ, ← Nat.mul_assoc, Nat.mul_div_cancel _ (by omega), Nat.add_sub_cancel]
    rw [h1, h2, ← hms]
    ring
  have hq : ∀ j a, inOut + (a + 2 * 2 ^ (b - rs) * j) * 2 ^ (rs - 1) + 2 ^ (b - 1) =
      inOut + (a + 2 ^ (b - rs) + 2 * 2 ^ (b - rs) * j) * 2 ^ (rs - 1) := by
    intro j a
    rw [← hms]
    ring
  -- bit `b - 1` of the first register of a pair is clear
  have hpair : ∀ j < nRows / 2 ^ (b + 1), ∀ a < 2 ^ (b - rs),
      inOut + (a + 2 * 2 ^ (b - rs) * j) * 2 ^ (rs - 1) < 128 ∧
      (inOut + (a + 2 * 2 ^ (b - rs) * j) * 2 ^ (rs - 1)).testBit (b - 1) = false := by
    intro j hj a ha
    refine hreg _ ?_ ?_
    · calc a + 2 * 2 ^ (b - rs) * j < 2 * 2 ^ (b - rs) * (j + 1) := by rw [Nat.mul_succ]; omega
        _ ≤ 2 * 2 ^ (b - rs) * (nRows / 2 ^ (b + 1)) := Nat.mul_le_mul_left _ hj
        _ = 16 := by rw [Nat.mul_comm, ← hm, hn]
    · rw [Nat.testBit_eq_decide_div_mod_eq,
        show 2 * 2 ^ (b - rs) * j = 2 ^ (b - rs) * (2 * j) by ring,
        Nat.add_mul_div_left _ _ (Nat.two_pow_pos _), Nat.div_eq_of_lt ha]
      simp
  have hflip : ∀ j < nRows / 2 ^ (b + 1), ∀ a < 2 ^ (b - rs),
      inOut + (a + 2 ^ (b - rs) + 2 * 2 ^ (b - rs) * j) * 2 ^ (rs - 1) =
        (inOut + (a + 2 * 2 ^ (b - rs) * j) * 2 ^ (rs - 1)) ^^^ 2 ^ (b - 1) := by
    intro j hj a ha
    obtain ⟨hlt, hbit⟩ := hpair j hj a ha
    rw [← hq, (testBit_false_spec (b - 1) (by omega) _ hlt hbit).2.1]
  have hmove := iterLoop_butterfly RegsRepresent (n := nRows / 2 ^ (b + 1)) (m := 2 ^ (b - rs))
    (φ := exchAll (levelBits b)) (fun k x => x.1 / 2 = inOut + k * 2 ^ (rs - 1))
    (fun k k' x h h' => Nat.eq_of_mul_eq_mul_right (Nat.two_pow_pos (rs - 1)) (by omega))
    (fun t => 2 ^ (b - rs) - 1 - t) (fun a ha => by omega)
    (fun j a s => avxTransposeBlockStep b (inOut + j * 2 ^ (b + 1) / 2) (a * 2 ^ rs) s)
    (fun j hj a ha x hx => ?_) (fun j hj a ha s A hA => ?_) hA
  · rw [hm] at hn
    rw [hn] at hmove
    rw [avxTransposeBlockIter2]
    simp only [avxTransposeBlockIter1, hm]
    exact hmove
  · refine exchAll_closed
      (levelBits_closed (by omega) (P := fun q => q = _ ∨ q = _) ?_) x hx
    rintro q (rfl | rfl)
    · exact .inr (hflip j hj a ha).symm
    · rw [hflip j hj a ha, Nat.xor_assoc, Nat.xor_self, Nat.xor_zero]
      exact .inl rfl
  · have hstep := avxTransposeBlockStep_represents (b := b) (by omega) hb
      (inOut + j * 2 ^ (b + 1) / 2) (a * 2 ^ rs) (by rw [hp]; exact (hpair j hj a ha).2)
      (by rw [hp, hq]; exact hflip j hj a ha) hA
    rwa [hp, hq] at hstep

theorem avxTransposeBlock_represents {matSizeShift rs matRowsShift inOut : ℕ}
    (h : ∀ t < matSizeShift - b, LevelOk (b + t) rs (2 ^ (matRowsShift + matSizeShift)) inOut)
    (hA : RegsRepresent s A) :
    RegsRepresent (avxTransposeBlock b matSizeShift rs matRowsShift inOut s)
      (reindexOn (fun x => BlockRows rs inOut x.1)
        (exchAll ((List.range (matSizeShift - b)).flatMap fun t => levelBits (b + t))) A) := by
  refine iterLoop_inv (fun t s => RegsRepresent s (reindexOn (fun x => BlockRows rs inOut x.1)
    (exchAll ((List.range t).flatMap fun t => levelBits (b + t))) A)) ?_ ?_
  · rwa [List.range_zero, List.flatMap_nil, reindexOn_exchAll_nil]
  · intro t ht s hs
    have hlevel := avxTransposeBlockIter2_represents (h t ht) hs
    obtain ⟨hrs, hrb, -, -, -, hflip⟩ := h t ht
    rw [reindexOn_exchAll (P := BlockRows rs inOut) _ (levelBits_closed (by omega)
      (P := fun q => ∃ k < 16, q = inOut + k * 2 ^ (rs - 1)) ?_)] at hlevel
    · rwa [List.range_succ, List.flatMap_append, List.flatMap_singleton]
    · rintro _ ⟨k, hk, rfl⟩
      exact hflip k hk

theorem levelOk_small : ∀ i < 4, ∀ t < 2, LevelOk (1 + t) 1 (2 ^ (2 + 3)) (i * 16) := by
  decide +kernel

theorem levelOk_large : ∀ i < 4, ∀ t < 4, LevelOk (3 + t) 3 (2 ^ (0 + 7)) i := by
  decide +kernel

/-- The blocks of one call of `avx_transpose` exchange the same bits; together they cover all
rows. -/
theorem blocks_represent (rs : ℕ) (base : ℕ → ℕ) (ws : List ℕ) (body : ℕ → (ℕ → M256) → ℕ → M256)
    (hdisj : ∀ j < 4, ∀ i < j, ∀ r, BlockRows rs (base i) r → ¬BlockRows rs (base j) r)
    (hunion : ∀ r, (∃ i < 4, BlockRows rs (base i) r) ↔ r < 128)
    (hclosed : ∀ i < 4, ∀ w ∈ ws, ∀ r, BlockRows rs (base i) r →
      BlockRows rs (base i) (r ^^^ 2 ^ w))
    (hbody : ∀ i < 4, ∀ s A, RegsRepresent s A → RegsRepresent (body i s)
      (reindexOn (fun x => BlockRows rs (base i) x.1) (exchAll ws) A))
    (hA : RegsRepresent s A) :
    RegsRepresent (iterLoop 4 body s) (reindexOn (fun x => x.1 < 128) (exchAll ws) A) := by
  have hmove := iterLoop_reindexOn RegsRepresent (fun j hj i hi (x : ℕ × ℕ) => hdisj j hj i hi x.1)
    (fun i hi => exchAll_closed (hclosed i hi)) hbody hA
  exact (reindexOn_congr fun x : ℕ × ℕ => hunion x.1) ▸ hmove

theorem avxTranspose3_represents (hA : RegsRepresent s A) :
    RegsRepresent (avxTranspose3 s) (reindexOn (fun x => x.1 < 128) (exchAll [0, 1, 2]) A) := by
  refine blocks_represent 1 (· * 16) [0, 1, 2] _ ?_ ?_ ?_
    (fun i hi s A hA => avxTransposeBlock_represents (levelOk_small i hi) hA) hA
  · rintro j - i hij r ⟨k, hk, h⟩ ⟨k', hk', h'⟩
    omega
  · intro r
    constructor
    · rintro ⟨i, hi, k, hk, h⟩
      omega
    · exact fun hr => ⟨r / 32, by omega, r / 2 % 16, by omega,
        by simp only [Nat.sub_self]; omega⟩
  · intro i hi w hw r hr
    have hlevel := fun t (ht : t < 2) => levelBits_closed (b := 1 + t) (by omega)
      (P := fun q => ∃ k < 16, q = i * 16 + k * 2 ^ (1 - 1))
      (by rintro _ ⟨k, hk, rfl⟩; exact (levelOk_small i hi t ht).2.2.2.2.2 k hk)
    fin_cases hw
    · exact hlevel 0 (by omega) 0 (by decide) r hr
    · exact hlevel 0 (by omega) 1 (by decide) r hr
    · exact hlevel 1 (by omega) 2 (by decide) r hr

theorem avxTranspose7_represents (hA : RegsRepresent s A) :
    RegsRepresent (avxTranspose7 s)
      (reindexOn (fun x => x.1 < 128) (exchAll [0, 1, 2, 3, 4, 5, 6]) A) := by
  have hmove := blocks_represent 3 id [3, 4, 5, 6] (avxTransposeBlock 3 7 3 0) ?_ ?_ ?_
    (fun i hi s A hA => avxTransposeBlock_represents (levelOk_large i hi) hA)
    (avxTranspose3_represents hA)
  · rwa [reindexOn_exchAll _ fun w hw r hr => xor_two_pow_lt ?_ r hr] at hmove
    fin_cases hw <;> decide
  · rintro j hj i hij r ⟨k, hk, h⟩ ⟨k', hk', h'⟩
    simp only [id_eq] at h h'
    omega
  · intro r
    constructor
    · rintro ⟨i, hi, k, hk, h⟩
      simp only [id_eq] at h
      omega
    · exact fun hr => ⟨r / 2 % 4, by omega, r / 8, by omega,
        by simp only [id_eq]; omega⟩
  · intro i hi w hw r hr
    have hlevel := fun t (ht : t < 4) => levelBits_closed (b := 3 + t) (by omega)
      (P := fun q => ∃ k < 16, q = i + k * 2 ^ (3 - 1))
      (by rintro _ ⟨k, hk, rfl⟩; exact (levelOk_large i hi t ht).2.2.2.2.2 k hk)
    fin_cases hw
    · exact hlevel 0 (by omega) 3 (by decide) r hr
    · exact hlevel 1 (by omega) 4 (by decide) r hr
    · exact hlevel 2 (by omega) 5 (by decide) r hr
    · exact hlevel 3 (by omega) 6 (by decide) r hr

/-- **`AvxTranspose128`** exchanges all bits of the indices. -/
theorem avxTranspose128_represents {m : Matrix128} (hA : Represents m A) :
    Represents (avxTranspose128 m)
      (reindexOn (fun x => x.1 < 128) (exchAll [0, 1, 2, 3, 4, 5, 6]) A) := by
  have hload : RegsRepresent (fun q => m (2 * q + 1) ++ m (2 * q)) A := by
    intro r c hc
    rw [BitVec.getLsbD_append]
    rcases Nat.mod_two_eq_zero_or_one r with he | he
    · rw [he, Nat.zero_add, if_pos hc, hA _ _ hc]
      exact congrArg (fun r => A (r, c)) (by omega)
    · rw [he, if_neg (by omega), Nat.add_sub_cancel_left, hA _ _ hc]
      exact congrArg (fun r => A (r, c)) (by omega)
  intro r c hc
  rw [avxTranspose128, BitVec.getLsbD_extractLsb', decide_eq_true hc]
  exact avxTranspose7_represents hload r c hc

end Yacl
