import Yacl.Crypto.Tools

/-!
# The circular correlation robust hash

The model of the rest of `yacl/crypto/tools/crhash.cc`. The hash of a block is the correlation
robust hash of `Sigma` of the block, and `Sigma` is written three times: for a single block, for a
span that is copied, and in place. The SIMD instructions they use are modelled by their lanes.

The two versions for spans compute `sigma`, which moves the low half of a block to the high one and
puts the sum of the halves in its place. The version for a single block takes `_mm_unpackhi_epi64`
where the others take `_mm_unpacklo_epi64`, and clears the low half instead (`sigmaBlock_eq`).
-/

open Loop

namespace Yacl.Crypto

/-! ### Registers -/

/-- The lane of `w` bits with number `k`. -/
def lane (w : ℕ) (x : Uint128) (k : ℕ) : BitVec w := x.extractLsb' (w * k) w

/-- `_mm_shuffle_epi32`: two bits of the constant select the lane of the operand for every lane of
the result. -/
def mmShuffleEpi32 (a : Uint128) (imm : BitVec 8) : Uint128 :=
  let select k := lane 32 a (imm.extractLsb' (2 * k) 2).toNat
  select 3 ++ select 2 ++ select 1 ++ select 0

/-- `_mm_unpackhi_epi64`: the high lanes of both operands. -/
def mmUnpackhiEpi64 (a b : Uint128) : Uint128 := makeUint128 (lane 64 b 1) (lane 64 a 1)

/-- `_mm_unpacklo_epi64`: the low lanes of both operands. -/
def mmUnpackloEpi64 (a b : Uint128) : Uint128 := makeUint128 (lane 64 b 0) (lane 64 a 0)

theorem makeUint128_lane (x : Uint128) : makeUint128 (lane 64 x 1) (lane 64 x 0) = x := by
  refine BitVec.eq_of_getLsbD_eq fun i hi => ?_
  rw [getLsbD_makeUint128, lane, lane]
  split
  · simp [*]
  · simp [show i - 64 < 64 by omega, show 64 + (i - 64) = i by omega]

@[simp]
theorem lane_zero_makeUint128 (hi lo : BitVec 64) : lane 64 (makeUint128 hi lo) 0 = lo := by
  refine BitVec.eq_of_getLsbD_eq fun i hi => ?_
  rw [lane, BitVec.getLsbD_extractLsb', getLsbD_makeUint128]
  simp [hi]

@[simp]
theorem lane_one_makeUint128 (hi lo : BitVec 64) : lane 64 (makeUint128 hi lo) 1 = hi := by
  refine BitVec.eq_of_getLsbD_eq fun i hi => ?_
  rw [lane, BitVec.getLsbD_extractLsb', getLsbD_makeUint128]
  simp [hi]

@[simp]
theorem lane_xor (w k : ℕ) (x y : Uint128) : lane w (x ^^^ y) k = lane w x k ^^^ lane w y k :=
  BitVec.extractLsb'_xor

@[simp]
theorem lane_of_zero (w k : ℕ) : lane w 0#128 k = 0#w := by
  refine BitVec.eq_of_getLsbD_eq fun i hi => ?_
  simp [lane]

theorem eq_of_lane {x y : Uint128} (h0 : lane 64 x 0 = lane 64 y 0)
    (h1 : lane 64 x 1 = lane 64 y 1) : x = y := by
  rw [← makeUint128_lane x, ← makeUint128_lane y, h0, h1]

/-- The constant `0b01001110`, which selects the lanes `1, 0, 3, 2`. -/
def exchangeImm : BitVec 8 := 0b01001110

theorem mmShuffleEpi32_exchange (x : Uint128) :
    mmShuffleEpi32 x exchangeImm = makeUint128 (lane 64 x 0) (lane 64 x 1) := by
  have h0 : (exchangeImm.extractLsb' (2 * 0) 2).toNat = 2 := by decide
  have h1 : (exchangeImm.extractLsb' (2 * 1) 2).toNat = 3 := by decide
  have h2 : (exchangeImm.extractLsb' (2 * 2) 2).toNat = 0 := by decide
  have h3 : (exchangeImm.extractLsb' (2 * 3) 2).toNat = 1 := by decide
  refine BitVec.eq_of_getLsbD_eq fun i hi => ?_
  simp only [mmShuffleEpi32, h0, h1, h2, h3, getLsbD_makeUint128, lane, BitVec.getLsbD_append]
  -- the lanes of the result, from the low one on
  rcases show i < 32 ∨ (32 ≤ i ∧ i < 64) ∨ (64 ≤ i ∧ i < 96) ∨ 96 ≤ i by omega with h | h | h | h
  · simp [h, show i < 64 by omega]
  · simp [h, show i - 32 < 32 by omega, show 96 + (i - 32) = 64 + i by omega]
  · simp [show ¬ i < 32 by omega, show ¬ i - 32 < 32 by omega, show i - 64 < 32 by omega,
      show ¬ i < 64 by omega, show i - 64 < 64 by omega, show i - 32 - 32 = i - 64 by omega]
  · simp [show ¬ i < 32 by omega, show ¬ i - 32 < 32 by omega, show ¬ i - 32 - 32 < 32 by omega,
      show i - 32 - 32 - 32 < 32 by omega, show ¬ i < 64 by omega, show i - 64 < 64 by omega,
      show 32 + (i - 32 - 32 - 32) = i - 64 by omega]

/-! ### The map `Sigma` -/

/-- `Sigma` of a single block. -/
def sigmaBlock (x : Uint128) : Uint128 :=
  let exchange := mmShuffleEpi32 x exchangeImm
  let left := mmUnpackhiEpi64 x 0
  exchange ^^^ left

/-- One step of the loops of `Sigma` for spans and of `SigmaInplace`. -/
def sigma (x : Uint128) : Uint128 :=
  let exchange := mmShuffleEpi32 x exchangeImm
  let left := mmUnpackloEpi64 x 0
  exchange ^^^ left

/-- `Sigma` of a span. The size of the copy is a `uint32_t`. -/
def sigmaSpan (x : List Uint128) : List Uint128 :=
  let num := x.length % 2 ^ 32
  (x.take num).map sigma

/-- `SigmaInplace`. The number of blocks that it changes is a `uint32_t`. -/
def sigmaInplace (x : List Uint128) : List Uint128 :=
  let num := x.length % 2 ^ 32
  (x.take num).map sigma ++ x.drop num

/-- **`Sigma` of a single block** loses the high half. -/
theorem sigmaBlock_eq (x : Uint128) : sigmaBlock x = makeUint128 (lane 64 x 0) 0 := by
  refine eq_of_lane ?_ ?_
  · simp [sigmaBlock, mmShuffleEpi32_exchange, mmUnpackhiEpi64]
  · simp [sigmaBlock, mmShuffleEpi32_exchange, mmUnpackhiEpi64]

/-- **`Sigma` of a block of a span** keeps both halves: one of them, and their sum. -/
theorem sigma_eq (x : Uint128) :
    sigma x = makeUint128 (lane 64 x 0) (lane 64 x 1 ^^^ lane 64 x 0) := by
  refine eq_of_lane ?_ ?_
  · simp [sigma, mmShuffleEpi32_exchange, mmUnpackloEpi64]
  · simp [sigma, mmShuffleEpi32_exchange, mmUnpackloEpi64]

theorem sigmaInplace_eq {x : List Uint128} (h : x.length < 2 ^ 32) :
    sigmaInplace x = x.map sigma := by
  rw [sigmaInplace, Nat.mod_eq_of_lt h, List.take_length, List.drop_length, List.append_nil]

/-! ### The hash -/

section Hash

variable (T : Tools)

/-- `CcrHash_128`. -/
def ccrHash128 (x : Uint128) : Uint128 := crHash128 T (sigmaBlock x)

/-- `ParaCcrHash_128`. -/
def paraCcrHash128 (x : List Uint128) : List Uint128 := paraCrHashInplace128 T (sigmaSpan x)

/-- The calls for `subspan(offset, num)` in `ParaCcrHashInplace_128`. -/
def ccrHashBatch (offset num : ℕ) (inout : List Uint128) : List Uint128 :=
  let batch := paraCrHashInplace128 T (sigmaInplace ((inout.drop offset).take num))
  inout.mapIdx fun i x =>
    if offset ≤ i ∧ i < offset + num then batch.getD (i - offset) 0 else x

/-- `ParaCcrHashInplace_128`: batches of `kBatchSize = 1024` while more than a batch is left, and
what remains. -/
def paraCcrHashInplace128 (inout : List Uint128) : List Uint128 :=
  let size := inout.length
  let batches := (size - 1) / 1024
  let inout := iterLoop batches (fun t inout => ccrHashBatch T (1024 * t) 1024 inout) inout
  let offset := 1024 * batches
  ccrHashBatch T offset (size - offset) inout

/-- What the versions for spans compute for an entry. -/
def spanCcrHash (x : Uint128) : Uint128 := crHash128 T (sigma x)

theorem ccrHashBatch_eq {num : ℕ} (hnum : num < 2 ^ 32) (offset : ℕ) (l : List Uint128) :
    ccrHashBatch T offset num l = mapPiece (spanCcrHash T) offset num l := by
  have hlen : ((l.drop offset).take num).length < 2 ^ 32 :=
    lt_of_le_of_lt (List.length_take_le _ _) hnum
  rw [ccrHashBatch, paraCrHashInplace128_eq, sigmaInplace_eq hlen, List.map_map]
  exact mapIdx_getD_eq_mapPiece (g := fun t _ => t) (fun _ => rfl) offset num l 0

/-- **`ParaCcrHashInplace_128`** hashes every entry. -/
theorem paraCcrHashInplace128_eq (l : List Uint128) :
    paraCcrHashInplace128 T l = l.map (spanCcrHash T) := by
  rw [paraCcrHashInplace128, iterLoop_mapPiece (ccrHashBatch_eq T (by omega)),
    ccrHashBatch_eq T (by omega), mapPiece_append, Nat.add_sub_cancel' (by omega), mapPiece_length]

/-- **`ParaCcrHash_128`** hashes as many entries as fit in a `uint32_t`. -/
theorem paraCcrHash128_eq (x : List Uint128) :
    paraCcrHash128 T x = (x.take (x.length % 2 ^ 32)).map (spanCcrHash T) := by
  rw [paraCcrHash128, paraCrHashInplace128_eq, sigmaSpan, List.map_map]
  rfl

/-- `ParaCcrHashInplace_128` on an array of `n` blocks. -/
def ccrHashArray (n : ℕ) (a : ℕ → Uint128) : ℕ → Uint128 :=
  let out := paraCcrHashInplace128 T ((List.range n).map a)
  fun k => out.getD k 0

theorem ccrHashArray_eq {n k : ℕ} (h : k < n) (a : ℕ → Uint128) :
    ccrHashArray T n a k = spanCcrHash T (a k) := by
  rw [ccrHashArray, paraCcrHashInplace128_eq]
  simp [List.getElem?_range h]

end Hash

/-! ### Single blocks against spans -/

/-- The three versions of the hash agree on a list, whatever permutation the cipher is. -/
def CcrHashAgree (x : List Uint128) : Prop :=
  ∀ T : Tools, Function.Bijective T.rpGen → ∀ i (h : i < x.length),
    (paraCcrHash128 T x)[i]? = some (ccrHash128 T x[i]) ∧
      (paraCcrHashInplace128 T x)[i]? = some (ccrHash128 T x[i])

theorem sigmaBlock_eq_sigma_iff {x : Uint128} :
    sigmaBlock x = sigma x ↔ lane 64 x 0 = lane 64 x 1 := by
  rw [sigmaBlock_eq, sigma_eq]
  constructor
  · intro h
    have h0 := congrArg (lane 64 · 0) h
    simp only [lane_zero_makeUint128] at h0
    exact (BitVec.xor_eq_zero_iff.mp h0.symm).symm
  · intro h
    rw [h, BitVec.xor_self]
    rfl

/-- The tools with another permutation. -/
def Tools.withRp (rp : Equiv.Perm Uint128) : Tools := { (default : Tools) with rpGen := rp }

/-- Two blocks are told apart by the hash for some permutation: one that moves the first block and
keeps the second. -/
theorem exists_crHash128_ne {x y : Uint128} (h : x ≠ y) :
    ∃ rp : Equiv.Perm Uint128, crHash128 (.withRp rp) x ≠ crHash128 (.withRp rp) y := by
  obtain ⟨z, hzx, hzy⟩ : ∃ z : Uint128, z ≠ x ∧ z ≠ y := by
    by_contra! hall
    have h0 := hall 0
    have h1 := hall 1
    have h2 := hall 2
    grind
  refine ⟨Equiv.swap x z, ?_⟩
  have hx : crHash128 (.withRp (Equiv.swap x z)) x = z ^^^ x := by
    simp [crHash128, Tools.withRp]
  have hy : crHash128 (.withRp (Equiv.swap x z)) y = 0 := by
    simp [crHash128, Tools.withRp, Equiv.swap_apply_of_ne_of_ne h.symm hzy.symm]
  rw [hx, hy]
  exact fun h0 => hzx (BitVec.xor_eq_zero_iff.mp h0)

theorem not_ccrHashAgree_of_mem {x : List Uint128} {v : Uint128} (hv : v ∈ x)
    (hne : lane 64 v 0 ≠ lane 64 v 1) : ¬CcrHashAgree x := by
  intro h
  obtain ⟨i, hi, rfl⟩ := List.getElem_of_mem hv
  obtain ⟨rp, hrp⟩ := exists_crHash128_ne fun heq => hne (sigmaBlock_eq_sigma_iff.mp heq)
  have hentry := (h (.withRp rp) rp.bijective i hi).2
  rw [paraCcrHashInplace128_eq, List.getElem?_map, List.getElem?_eq_getElem hi, Option.map_some,
    Option.some_inj] at hentry
  exact hrp hentry.symm

theorem not_ccrHashAgree_of_le {x : List Uint128} (hlen : 2 ^ 32 ≤ x.length) :
    ¬CcrHashAgree x := by
  intro h
  have hentry := (h (.withRp 1) (1 : Equiv.Perm Uint128).bijective (x.length % 2 ^ 32)
    (by omega)).1
  rw [paraCcrHash128_eq] at hentry
  exact absurd hentry (by simp)

/-- **The versions of the hash agree** exactly on lists shorter than `2 ^ 32` of blocks with equal
halves. -/
theorem ccrHashAgree_iff (x : List Uint128) :
    CcrHashAgree x ↔ x.length < 2 ^ 32 ∧ ∀ v ∈ x, lane 64 v 0 = lane 64 v 1 := by
  constructor
  · intro h
    refine ⟨?_, fun v hv => ?_⟩
    · by_contra hlen
      exact not_ccrHashAgree_of_le (by omega) h
    · by_contra hne
      exact not_ccrHashAgree_of_mem hv hne h
  · rintro ⟨hlen, hhalves⟩ T - i hi
    have heq : spanCcrHash T x[i] = ccrHash128 T x[i] := by
      rw [spanCcrHash, ccrHash128,
        sigmaBlock_eq_sigma_iff.mpr (hhalves _ (List.getElem_mem hi))]
    rw [paraCcrHash128_eq, paraCcrHashInplace128_eq, Nat.mod_eq_of_lt hlen, List.take_length,
      List.getElem?_map, List.getElem?_eq_getElem hi, Option.map_some, heq]
    exact ⟨rfl, rfl⟩

/-- The block `1`. -/
theorem not_ccrHashAgree_one : ¬CcrHashAgree [1] :=
  not_ccrHashAgree_of_mem (List.mem_singleton_self _) (by decide)

/-! ### Orthomorphisms -/

/-- A linear map of blocks that is injective, and stays so when the block is added. -/
structure LinearOrthomorphism (f : Uint128 → Uint128) : Prop where
  map_xor : ∀ x y, f (x ^^^ y) = f x ^^^ f y
  injective : Function.Injective f
  xor_injective : Function.Injective fun x => f x ^^^ x

/-- The occurrences of `Sigma`: for a single block, or for a block of a span that stands between
other ones. -/
inductive SigmaVariant where
  | block
  | span (before after : List Uint128)
  | inplace (before after : List Uint128)

/-- The map of blocks that a version of `Sigma` computes. -/
def SigmaVariant.apply : SigmaVariant → Uint128 → Uint128
  | block, x => sigmaBlock x
  | span before after, x => (sigmaSpan (before ++ x :: after)).getD before.length 0
  | inplace before after, x => (sigmaInplace (before ++ x :: after)).getD before.length 0

/-- The block is one of a span that the loop reaches. -/
def SigmaVariant.InLoop : SigmaVariant → Prop
  | block => False
  | span before after | inplace before after =>
    before.length < (before ++ after).length.succ % 2 ^ 32

instance : DecidablePred SigmaVariant.InLoop
  | .block => .isFalse id
  | .span _ _ => Nat.decLt _ _
  | .inplace _ _ => Nat.decLt _ _

theorem sigma_linearOrthomorphism : LinearOrthomorphism sigma where
  map_xor x y := by
    refine eq_of_lane ?_ ?_
    · simp only [sigma_eq, lane_xor, lane_zero_makeUint128]
      ac_rfl
    · simp only [sigma_eq, lane_xor, lane_one_makeUint128]
  injective x y h := by
    have h0 := congrArg (lane 64 · 0) h
    have h1 := congrArg (lane 64 · 1) h
    simp only [sigma_eq, lane_zero_makeUint128, lane_one_makeUint128] at h0 h1
    rw [h1, BitVec.xor_left_inj] at h0
    exact eq_of_lane h1 h0
  xor_injective x y h := by
    have h0 := congrArg (lane 64 · 0) h
    have h1 := congrArg (lane 64 · 1) h
    simp only [sigma_eq, lane_xor, lane_zero_makeUint128, lane_one_makeUint128] at h0 h1
    -- the low half of the sum is the high half of the block
    rw [BitVec.xor_assoc, BitVec.xor_self, BitVec.xor_zero, BitVec.xor_assoc, BitVec.xor_self,
      BitVec.xor_zero] at h0
    rw [h0, BitVec.xor_left_inj] at h1
    exact eq_of_lane h1 h0

theorem not_linearOrthomorphism_sigmaBlock : ¬LinearOrthomorphism sigmaBlock := by
  intro h
  have heq : sigmaBlock 0 = sigmaBlock (makeUint128 1 0) := by
    rfl
  exact absurd (h.injective heq) (by decide)

theorem not_linearOrthomorphism_zero : ¬LinearOrthomorphism fun _ => 0 := by
  intro h
  have heq : (0 : Uint128) = 1 := h.injective rfl
  exact absurd heq (by decide)

theorem not_linearOrthomorphism_id : ¬LinearOrthomorphism fun x => x := by
  intro h
  have heq : (0 ^^^ 0 : Uint128) = 1 ^^^ 1 := by decide
  exact absurd (h.xor_injective heq) (by decide)

namespace SigmaVariant

variable (before after : List Uint128)

theorem apply_span (x : Uint128) : (span before after).apply x =
    if (span before after).InLoop then sigma x else 0 := by
  have hlen : (before ++ x :: after).length = (before ++ after).length.succ := by simp; omega
  rw [apply, sigmaSpan, hlen, List.getD_eq_getElem?_getD, List.getElem?_map, List.getElem?_take]
  by_cases h : before.length < (before ++ after).length.succ % 2 ^ 32
  · rw [if_pos h, if_pos (show (span before after).InLoop from h)]
    simp
  · rw [if_neg h, if_neg (show ¬(span before after).InLoop from h)]
    rfl

theorem apply_inplace (x : Uint128) : (inplace before after).apply x =
    if (inplace before after).InLoop then sigma x else x := by
  have hlen : (before ++ x :: after).length = (before ++ after).length.succ := by simp; omega
  rw [apply, sigmaInplace, List.getD_eq_getElem?_getD, List.getElem?_append, List.length_map,
    List.length_take, List.getElem?_map, List.getElem?_take, List.getElem?_drop, hlen]
  have hmod : (before ++ after).length.succ % 2 ^ 32 ≤ (before ++ after).length.succ :=
    Nat.mod_le _ _
  rw [min_eq_left hmod]
  by_cases h : before.length < (before ++ after).length.succ % 2 ^ 32
  · rw [if_pos h, if_pos h, if_pos (show (inplace before after).InLoop from h)]
    simp
  · rw [if_neg h, if_neg (show ¬(inplace before after).InLoop from h),
      Nat.add_sub_cancel' (not_lt.mp h)]
    simp

end SigmaVariant

/-- **The versions of `Sigma`** that are linear orthomorphisms are those for spans, inside of
their loops. -/
theorem sigmaVariant_linearOrthomorphism_iff (v : SigmaVariant) :
    LinearOrthomorphism v.apply ↔ v.InLoop := by
  cases v with
  | block => exact iff_of_false not_linearOrthomorphism_sigmaBlock id
  | span before after =>
    by_cases h : (SigmaVariant.span before after).InLoop
    · refine iff_of_true ?_ h
      simp only [funext (SigmaVariant.apply_span before after), if_pos h]
      exact sigma_linearOrthomorphism
    · refine iff_of_false ?_ h
      simp only [funext (SigmaVariant.apply_span before after), if_neg h]
      exact not_linearOrthomorphism_zero
  | inplace before after =>
    by_cases h : (SigmaVariant.inplace before after).InLoop
    · refine iff_of_true ?_ h
      simp only [funext (SigmaVariant.apply_inplace before after), if_pos h]
      exact sigma_linearOrthomorphism
    · refine iff_of_false ?_ h
      simp only [funext (SigmaVariant.apply_inplace before after), if_neg h]
      exact not_linearOrthomorphism_id

/-- `Sigma` of a single block. -/
theorem not_sigmaVariant_block : ¬LinearOrthomorphism (SigmaVariant.apply .block) :=
  not_linearOrthomorphism_sigmaBlock

end Yacl.Crypto
