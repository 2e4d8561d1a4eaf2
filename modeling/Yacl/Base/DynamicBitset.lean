import Yacl.Base.Span
import Yacl.Base.Int128
import Yacl.Lib.Bits

/-!
# Bit sets

The model of `dynamic_bitset<uint128_t>` of `yacl/base/dynamic_bitset.h`: the bits lie in blocks
of `128`, least significant bit first, and the bits of the last block past the end are zero. The
structure carries these two facts, which `check_consistency` asserts in the source.

Every operation is described by the bits of its result (`bit_resize`, `bit_pushBack`,
`bit_shiftRight`, `bit_set`), and `data` by the bits of the block (`data_eq`).
-/

open Bits

namespace Yacl

/-- `blocks_required`. -/
def blocksRequired (nbits : ℕ) : ℕ := nbits / 128 + if nbits % 128 > 0 then 1 else 0

/-- Bit `i` of a list of blocks, zero past the end. -/
def blockBit (blocks : List Uint128) (i : ℕ) : Bool :=
  (blocks.getD (i / 128) 0).getLsbD (i % 128)

/-- `dynamic_bitset<uint128_t>`. The blocks are as many as the bits need, and the bits past the end
are zero; the source asserts both (`check_consistency`). -/
structure DynamicBitset where
  /-- `m_blocks`. -/
  blocks : List Uint128
  /-- `m_bits_number`. -/
  size : ℕ
  /-- `check_size`. -/
  blocks_length : blocks.length = blocksRequired size
  /-- `check_unused_bits`. -/
  unused : ∀ i, size ≤ i → blockBit blocks i = false

theorem lt_blocksRequired {n i : ℕ} (h : i < n) : i / 128 < blocksRequired n := by
  rw [blocksRequired]
  split <;> omega

variable {blocks : List Uint128}

theorem blockBit_of_le {i : ℕ} (h : 128 * blocks.length ≤ i) : blockBit blocks i = false := by
  rw [blockBit, List.getD_eq_getElem?_getD, List.getElem?_eq_none (by omega)]
  simp

theorem blockBit_set {k : ℕ} (hk : k < blocks.length) (v : Uint128) (i : ℕ) :
    blockBit (blocks.set k v) i =
      if i / 128 = k then v.getLsbD (i % 128) else blockBit blocks i := by
  rw [blockBit, List.getD_eq_getElem?_getD, List.getElem?_set]
  by_cases h : i / 128 = k
  · rw [if_pos h, if_pos h.symm, if_pos hk]
    rfl
  · rw [if_neg h, if_neg (Ne.symm h), blockBit, List.getD_eq_getElem?_getD]

theorem blockBit_append (blocks : List Uint128) (v : Uint128) (i : ℕ) :
    blockBit (blocks ++ [v]) i =
      if i / 128 = blocks.length then v.getLsbD (i % 128) else blockBit blocks i := by
  rw [blockBit, blockBit, List.getD_eq_getElem?_getD, List.getD_eq_getElem?_getD]
  rcases Nat.lt_trichotomy (i / 128) blocks.length with h | h | h
  · rw [List.getElem?_append_left h, if_neg h.ne]
  · rw [List.getElem?_append_right h.ge, if_pos h, h, Nat.sub_self]
    rfl
  · rw [if_neg h.ne', List.getElem?_eq_none (by simp; omega), List.getElem?_eq_none h.le]

theorem blockBit_replicate (n i : ℕ) : blockBit (List.replicate n 0) i = false := by
  rw [blockBit, List.getD_eq_getElem?_getD, List.getElem?_replicate]
  split <;> simp

theorem blockBit_zipWith_xor {a b : List Uint128} (h : a.length = b.length) (i : ℕ) :
    blockBit (List.zipWith (· ^^^ ·) a b) i = (blockBit a i ^^ blockBit b i) := by
  rw [blockBit, blockBit, blockBit, List.getD_eq_getElem?_getD, List.getD_eq_getElem?_getD,
    List.getD_eq_getElem?_getD, List.getElem?_zipWith]
  by_cases hi : i / 128 < a.length
  · rw [List.getElem?_eq_getElem hi, List.getElem?_eq_getElem (h ▸ hi)]
    exact BitVec.getLsbD_xor
  · rw [List.getElem?_eq_none (by omega), List.getElem?_eq_none (by omega)]
    simp

/-- `m_blocks[block_index(pos)] |= bit_mask(pos)`, and `&= ~bit_mask(pos)`. -/
def setBlockBit (blocks : List Uint128) (pos : ℕ) (value : Bool) : List Uint128 :=
  let block := blocks.getD (pos / 128) 0
  let mask : Uint128 := 1#128 <<< (pos % 128)
  blocks.set (pos / 128) (if value then block ||| mask else block &&& ~~~mask)

theorem blockBit_setBlockBit {pos : ℕ} (h : pos / 128 < blocks.length) (value : Bool) (i : ℕ) :
    blockBit (setBlockBit blocks pos value) i = if i = pos then value else blockBit blocks i := by
  have hmask : (1#128 <<< (pos % 128)).getLsbD (i % 128) = decide (i % 128 = pos % 128) := by
    grind
  have hlt : i % 128 < 128 := Nat.mod_lt _ (by omega)
  rw [setBlockBit, blockBit_set h]
  by_cases hblock : i / 128 = pos / 128
  · rw [← hblock]
    have hpos : i % 128 = pos % 128 ↔ i = pos := by omega
    cases value <;>
      simp only [if_true, if_false, Bool.false_eq_true, BitVec.getLsbD_or, BitVec.getLsbD_and,
        BitVec.getLsbD_not, hmask, hlt, hpos, blockBit] <;>
      by_cases hi : i = pos <;> simp [hi]
  · rw [if_neg hblock, if_neg (by rintro rfl; exact hblock rfl)]

/-- `sanitize`: clear the bits of the last block past the end. -/
def sanitize (nbits : ℕ) (blocks : List Uint128) : List Uint128 :=
  let shift := nbits % 128
  if shift > 0 then
    let last := blocks.length - 1
    blocks.set last (blocks.getD last 0 &&& ~~~(BitVec.allOnes 128 <<< shift))
  else blocks

theorem length_sanitize (nbits : ℕ) (blocks : List Uint128) :
    (sanitize nbits blocks).length = blocks.length := by
  rw [sanitize]
  split <;> simp

theorem blockBit_sanitize {nbits : ℕ} (h : blocks.length = blocksRequired nbits) (i : ℕ) :
    blockBit (sanitize nbits blocks) i = (decide (i < nbits) && blockBit blocks i) := by
  rw [blocksRequired] at h
  rw [sanitize]
  by_cases hshift : nbits % 128 > 0
  · rw [if_pos hshift] at h
    rw [if_pos hshift, blockBit_set (by omega)]
    by_cases hlast : i / 128 = blocks.length - 1
    · have hlt : i % 128 < 128 := Nat.mod_lt _ (by omega)
      rw [← hlast, BitVec.getLsbD_and, BitVec.getLsbD_not, BitVec.getLsbD_shiftLeft,
        BitVec.getLsbD_allOnes, blockBit]
      have hdec : (i % 128 < nbits % 128) ↔ i < nbits := by omega
      by_cases hi : i < nbits
      · simp [hlt, hi, hdec]
      · simp [hi, hdec, show i % 128 - nbits % 128 < 128 by omega]
    · rw [if_neg hlast]
      by_cases hi : i < nbits
      · rw [decide_eq_true hi, Bool.true_and]
      · rw [blockBit_of_le (by omega), Bool.and_false]
  · rw [if_neg hshift] at h
    rw [if_neg hshift]
    by_cases hi : i < nbits
    · rw [decide_eq_true hi, Bool.true_and]
    · rw [blockBit_of_le (by omega), Bool.and_false]

namespace DynamicBitset

/-- Bit `i`, zero past the end. -/
def bit (b : DynamicBitset) (i : ℕ) : Bool := blockBit b.blocks i

variable {b : DynamicBitset} {i : ℕ}

theorem bit_of_le (h : b.size ≤ i) : b.bit i = false := b.unused i h

/-- `operator[]` and `test`. -/
def test (b : DynamicBitset) (pos : ℕ) : Except Exception Bool :=
  if pos < b.size then pure (b.bit pos) else throw .undefinedBehaviour

variable {pos : ℕ}

theorem test_of_lt (h : pos < b.size) : b.test pos = .ok (b.bit pos) := by
  rw [test, if_pos h]
  rfl

/-- `data()[i]`. -/
def data (b : DynamicBitset) (i : ℕ) : Except Exception Uint128 := vecGet b.blocks i

theorem data_eq (h : 128 * i < b.size) :
    b.data i = .ok (bitsOf 128 fun j => b.bit (128 * i + j)) := by
  have hlt : i < b.blocks.length := by
    have := lt_blocksRequired h
    rw [b.blocks_length]
    omega
  refine vecGet_of_getElem? ?_
  rw [List.getElem?_eq_getElem hlt, Option.some_inj]
  refine BitVec.eq_of_getLsbD_eq fun j hj => ?_
  rw [getLsbD_bitsOf, decide_eq_true hj, Bool.true_and, bit, blockBit,
    Nat.mul_add_div (by omega), Nat.div_eq_of_lt hj, Nat.add_zero, Nat.mul_add_mod,
    Nat.mod_eq_of_lt hj, List.getD_eq_getElem?_getD, List.getElem?_eq_getElem hlt,
    Option.getD_some]

/-- The span of `n` blocks at `data()`. -/
def dataSpan (b : DynamicBitset) (n : ℕ) : Except Exception (ℕ → Uint128) :=
  if n ≤ b.blocks.length then pure fun i => b.blocks.getD i 0 else throw .undefinedBehaviour

theorem dataSpan_eq {n : ℕ} (h : 128 * n ≤ b.size) :
    ∃ a, b.dataSpan n = .ok a ∧ ∀ i < n, a i = bitsOf 128 fun j => b.bit (128 * i + j) := by
  have hlen : n ≤ b.blocks.length := by
    rw [b.blocks_length, blocksRequired]
    omega
  refine ⟨_, if_pos hlen, fun i hi => ?_⟩
  have hdata := data_eq (b := b) (i := i) (by omega)
  rw [data, vecGet, List.getElem?_eq_getElem (by omega)] at hdata
  rw [List.getD_eq_getElem?_getD, List.getElem?_eq_getElem (by omega)]
  exact Except.ok.inj hdata

/-- The constructor `dynamic_bitset(nbits)`. -/
def ofSize (nbits : ℕ) : DynamicBitset where
  blocks := List.replicate (blocksRequired nbits) 0
  size := nbits
  blocks_length := List.length_replicate
  unused i _ := blockBit_replicate _ i

@[simp]
theorem size_ofSize (nbits : ℕ) : (ofSize nbits).size = nbits := rfl

theorem bit_ofSize (nbits i : ℕ) : (ofSize nbits).bit i = false := blockBit_replicate _ i

/-- `set(pos, value)`. -/
def set (b : DynamicBitset) (pos : ℕ) (value : Bool) (h : pos < b.size) : DynamicBitset where
  blocks := setBlockBit b.blocks pos value
  size := b.size
  blocks_length := by rw [setBlockBit, List.length_set, b.blocks_length]
  unused i hi := by
    rw [blockBit_setBlockBit (b.blocks_length ▸ lt_blocksRequired h), if_neg (by omega),
      b.unused i hi]

theorem bit_set (h : pos < b.size) (value : Bool) (i : ℕ) :
    (b.set pos value h).bit i = if i = pos then value else b.bit i :=
  blockBit_setBlockBit (b.blocks_length ▸ lt_blocksRequired h) value i

/-- The blocks of `push_back`. -/
def pushBackBlocks (b : DynamicBitset) (value : Bool) : List Uint128 :=
  if b.size + 1 ≤ b.blocks.length * 128 then
    if value then setBlockBit b.blocks b.size value else b.blocks
  else b.blocks ++ [if value then 1 else 0]

theorem blockBit_pushBackBlocks (b : DynamicBitset) (value : Bool) (i : ℕ) :
    blockBit (b.pushBackBlocks value) i = if i = b.size then value else b.bit i := by
  have hlen := b.blocks_length
  rw [blocksRequired] at hlen
  rw [pushBackBlocks]
  split
  · next h =>
    cases value
    · rw [if_neg Bool.false_ne_true]
      by_cases hi : i = b.size
      · rw [if_pos hi, hi, b.unused b.size le_rfl]
      · rw [if_neg hi, bit]
    · exact blockBit_setBlockBit (by omega) true i
  · next h =>
    have hsize : b.size = 128 * b.blocks.length := by
      split at hlen <;> omega
    rw [blockBit_append]
    by_cases hi : i = b.size
    · subst hi
      rw [if_pos (by omega), if_pos rfl, show b.size % 128 = 0 by omega]
      cases value <;> rfl
    · split
      · next hlast =>
        rw [bit, b.unused i (by omega)]
        cases value
        · simp
        · have : i % 128 ≠ 0 := by omega
          simp [this]
      · rfl

/-- `push_back`. -/
def pushBack (b : DynamicBitset) (value : Bool) : DynamicBitset where
  blocks := b.pushBackBlocks value
  size := b.size + 1
  blocks_length := by
    have hlen := b.blocks_length
    have hpush : (b.pushBackBlocks value).length =
        if b.size + 1 ≤ b.blocks.length * 128 then b.blocks.length else b.blocks.length + 1 := by
      rw [pushBackBlocks]
      cases value <;> simp [setBlockBit, apply_ite]
    rw [hpush]
    rw [blocksRequired] at hlen ⊢
    split at hlen <;> split <;> split <;> omega
  unused i hi := by
    rw [blockBit_pushBackBlocks, if_neg (by omega), bit_of_le (by omega)]

@[simp]
theorem size_pushBack (b : DynamicBitset) (value : Bool) :
    (b.pushBack value).size = b.size + 1 := rfl

theorem bit_pushBack (b : DynamicBitset) (value : Bool) (i : ℕ) :
    (b.pushBack value).bit i = if i = b.size then value else b.bit i :=
  b.blockBit_pushBackBlocks value i

/-- `resize(nbits)`; the new bits are zero, as in every call of the library. -/
def resize (b : DynamicBitset) (nbits : ℕ) : DynamicBitset where
  blocks := sanitize nbits (vecResize b.blocks (blocksRequired nbits) 0)
  size := nbits
  blocks_length := by rw [length_sanitize, length_vecResize]
  unused i hi := by
    rw [blockBit_sanitize (length_vecResize ..), decide_eq_false (by omega), Bool.false_and]

@[simp]
theorem size_resize (b : DynamicBitset) (nbits : ℕ) : (b.resize nbits).size = nbits := rfl

theorem bit_resize (b : DynamicBitset) (nbits i : ℕ) :
    (b.resize nbits).bit i = (decide (i < nbits) && b.bit i) := by
  rw [bit, resize, blockBit_sanitize (length_vecResize ..)]
  by_cases hi : i < nbits
  · rw [blockBit, getD_vecResize, if_pos (lt_blocksRequired hi), bit, blockBit]
  · rw [decide_eq_false hi, Bool.false_and, Bool.false_and]

/-- The blocks of `append(block)`. -/
def appendBlocks (b : DynamicBitset) (block : Uint128) : List Uint128 :=
  let extraBits := b.size % 128
  if extraBits = 0 then b.blocks ++ [block]
  else
    let last := b.blocks.length - 1
    b.blocks.set last (b.blocks.getD last 0 ||| block <<< extraBits) ++
      [block >>> (128 - extraBits)]

theorem blockBit_appendBlocks (b : DynamicBitset) (block : Uint128) (i : ℕ) :
    blockBit (b.appendBlocks block) i =
      if i < b.size then b.bit i else block.getLsbD (i - b.size) := by
  have hlen := b.blocks_length
  rw [blocksRequired] at hlen
  rw [appendBlocks]
  split
  · next hextra =>
    rw [if_neg (by omega)] at hlen
    rw [blockBit_append]
    by_cases hi : i < b.size
    · rw [if_neg (by omega), if_pos hi, bit]
    · split
      · rw [show i % 128 = i - b.size by omega]
      · rw [blockBit_of_le (by omega), BitVec.getLsbD_of_ge _ _ (by omega)]
  · next hextra =>
    rw [if_pos (by omega)] at hlen
    rw [blockBit_append, List.length_set, blockBit_set (by omega)]
    by_cases hi : i < b.size
    · rw [if_neg (by omega)]
      split
      · next hlast =>
        rw [BitVec.getLsbD_or, bit, blockBit, hlast]
        simp [show i % 128 < b.size % 128 by omega]
      · rfl
    · split
      · rw [BitVec.getLsbD_ushiftRight, show 128 - b.size % 128 + i % 128 = i - b.size by omega]
      split
      · next hlast =>
        have hunused := b.unused i (by omega)
        rw [blockBit, hlast] at hunused
        rw [BitVec.getLsbD_or, hunused, BitVec.getLsbD_shiftLeft,
          show i % 128 - b.size % 128 = i - b.size by omega]
        simp [show ¬i % 128 < b.size % 128 by omega, show i % 128 < 128 by omega]
      · rw [blockBit_of_le (by omega), BitVec.getLsbD_of_ge _ _ (by omega)]

/-- `append(block)`. -/
def append (b : DynamicBitset) (block : Uint128) : DynamicBitset where
  blocks := b.appendBlocks block
  size := b.size + 128
  blocks_length := by
    have hlen := b.blocks_length
    have happ : (b.appendBlocks block).length = b.blocks.length + 1 := by
      rw [appendBlocks]
      split <;> simp
    rw [happ, hlen, blocksRequired, blocksRequired, Nat.add_mod_right,
      Nat.add_div_right _ (by omega)]
    omega
  unused i hi := by
    rw [blockBit_appendBlocks, if_neg (by omega), BitVec.getLsbD_of_ge _ _ (by omega)]

theorem bit_append (b : DynamicBitset) (block : Uint128) (i : ℕ) :
    (b.append block).bit i = if i < b.size then b.bit i else block.getLsbD (i - b.size) :=
  b.blockBit_appendBlocks block i

/-- `m_blocks[block_index(pos)] ^= bit_mask(pos)`. -/
def flipBlockBit (blocks : List Uint128) (pos : ℕ) : List Uint128 :=
  blocks.set (pos / 128) (blocks.getD (pos / 128) 0 ^^^ 1#128 <<< (pos % 128))

variable {blocks : List Uint128}

theorem blockBit_flipBlockBit (h : pos / 128 < blocks.length) (i : ℕ) :
    blockBit (flipBlockBit blocks pos) i = (blockBit blocks i ^^ decide (i = pos)) := by
  have hmask : (1#128 <<< (pos % 128)).getLsbD (i % 128) = decide (i % 128 = pos % 128) := by
    grind
  rw [flipBlockBit, blockBit_set h]
  split
  · next hblock =>
    rw [BitVec.getLsbD_xor, hmask, blockBit, hblock]
    exact congrArg _ (decide_eq_decide.mpr (by omega))
  · rw [decide_eq_false (by omega), Bool.xor_false]

/-- `flip(pos)`, which is undefined behaviour past the end. -/
def flip (b : DynamicBitset) (pos : ℕ) : Except Exception DynamicBitset :=
  if h : pos < b.size then
    pure
      { blocks := flipBlockBit b.blocks pos
        size := b.size
        blocks_length := by rw [flipBlockBit, List.length_set, b.blocks_length]
        unused := fun i hi => by
          rw [blockBit_flipBlockBit (b.blocks_length ▸ lt_blocksRequired h), b.unused i hi,
            decide_eq_false (by omega), Bool.xor_false] }
  else throw .undefinedBehaviour

theorem flip_eq (h : pos < b.size) :
    ∃ b', b.flip pos = .ok b' ∧ b'.size = b.size ∧
      ∀ i, b'.bit i = (b.bit i ^^ decide (i = pos)) :=
  ⟨_, dif_pos h, rfl, blockBit_flipBlockBit (b.blocks_length ▸ lt_blocksRequired h)⟩

/-- `b[pos] ^= v`. -/
def xorBit (b : DynamicBitset) (pos : ℕ) (v : Bool) : Except Exception DynamicBitset :=
  if v then b.flip pos else pure b

theorem xorBit_eq (h : pos < b.size) (v : Bool) :
    ∃ b', b.xorBit pos v = .ok b' ∧ b'.size = b.size ∧
      ∀ i, b'.bit i = (b.bit i ^^ (decide (i = pos) && v)) := by
  cases v with
  | false => exact ⟨b, rfl, rfl, fun i => by simp⟩
  | true =>
    obtain ⟨b', hb', hsize, hbit⟩ := flip_eq h
    exact ⟨b', hb', hsize, fun i => by rw [hbit, Bool.and_true]⟩

/-- `~b`. -/
def complement (b : DynamicBitset) : DynamicBitset where
  blocks := sanitize b.size (b.blocks.map (~~~·))
  size := b.size
  blocks_length := by rw [length_sanitize, List.length_map, b.blocks_length]
  unused i hi := by
    rw [blockBit_sanitize (by rw [List.length_map, b.blocks_length]), decide_eq_false (by omega),
      Bool.false_and]

@[simp]
theorem size_complement (b : DynamicBitset) : b.complement.size = b.size := rfl

theorem bit_complement (h : i < b.size) : b.complement.bit i = !b.bit i := by
  have hlt : i / 128 < b.blocks.length := b.blocks_length ▸ lt_blocksRequired h
  rw [bit, complement, blockBit_sanitize (by rw [List.length_map, b.blocks_length]),
    decide_eq_true h, blockBit, bit, blockBit, List.getD_eq_getElem?_getD,
    List.getD_eq_getElem?_getD, List.getElem?_map, List.getElem?_eq_getElem hlt]
  simp [Nat.mod_lt]

/-- `a ^ b`; two bit sets of different sizes fail the assertion of `operator^=`. -/
def xor (a b : DynamicBitset) : Except Exception DynamicBitset :=
  if h : a.size = b.size then
    pure
      { blocks := List.zipWith (· ^^^ ·) a.blocks b.blocks
        size := a.size
        blocks_length := by
          rw [List.length_zipWith, a.blocks_length, b.blocks_length, h, Nat.min_self]
        unused := fun i hi => by
          rw [blockBit_zipWith_xor (by rw [a.blocks_length, b.blocks_length, h]), a.unused i hi,
            b.unused i (h ▸ hi)]
          rfl }
  else throw .undefinedBehaviour

theorem xor_eq {a : DynamicBitset} (h : a.size = b.size) :
    ∃ x, a.xor b = .ok x ∧ x.size = a.size ∧ ∀ i, x.bit i = (a.bit i ^^ b.bit i) :=
  ⟨_, dif_pos h, rfl, blockBit_zipWith_xor (by rw [a.blocks_length, b.blocks_length, h])⟩

/-- The blocks of `apply_right_shift`, which overwrites block `i` after its last read. -/
def shiftRightBlocks (blocks : List Uint128) (shift : ℕ) : List Uint128 :=
  let blocksShift := shift / 128
  let bitsOffset := shift % 128
  let lastBlockToShift := blocks.length - blocksShift - 1
  blocks.mapIdx fun i _ =>
    if lastBlockToShift < i then 0
    else if bitsOffset = 0 then blocks.getD (i + blocksShift) 0
    else if i < lastBlockToShift then
      (blocks.getD (i + blocksShift) 0 >>> bitsOffset) |||
        (blocks.getD (i + blocksShift + 1) 0 <<< (128 - bitsOffset))
    else blocks.getD (blocks.length - 1) 0 >>> bitsOffset

theorem getD_shiftRightBlocks {shift k : ℕ} (h : shift < 128 * blocks.length)
    (hk : k < blocks.length) :
    (shiftRightBlocks blocks shift).getD k 0 =
      bitsOf 128 fun j => blockBit blocks (128 * k + j + shift) := by
  refine BitVec.eq_of_getLsbD_eq fun j hj => ?_
  rw [getLsbD_bitsOf, decide_eq_true hj, Bool.true_and, shiftRightBlocks,
    List.getD_eq_getElem?_getD, List.getElem?_mapIdx, List.getElem?_eq_getElem hk, Option.map_some,
    Option.getD_some]
  by_cases hlast : blocks.length - shift / 128 - 1 < k
  · rw [if_pos hlast, blockBit_of_le (by omega)]
    simp
  rw [if_neg hlast]
  by_cases hoff : shift % 128 = 0
  · rw [if_pos hoff, blockBit, show (128 * k + j + shift) / 128 = k + shift / 128 by omega,
      show (128 * k + j + shift) % 128 = j by omega]
  rw [if_neg hoff]
  -- the bits of the block come from two neighbouring blocks, or from the last one
  by_cases hlow : j + shift % 128 < 128
  · have hsrc : blockBit blocks (128 * k + j + shift) =
        (blocks.getD (k + shift / 128) 0).getLsbD (shift % 128 + j) := by
      rw [blockBit, show (128 * k + j + shift) / 128 = k + shift / 128 by omega,
        show (128 * k + j + shift) % 128 = shift % 128 + j by omega]
    split
    · simp [hsrc, show j < 128 - shift % 128 by omega]
    · rw [hsrc, BitVec.getLsbD_ushiftRight, show blocks.length - 1 = k + shift / 128 by omega]
  · split
    · rw [BitVec.getLsbD_or, BitVec.getLsbD_ushiftRight, BitVec.getLsbD_of_ge _ _ (by omega),
        BitVec.getLsbD_shiftLeft, blockBit,
        show (128 * k + j + shift) / 128 = k + shift / 128 + 1 by omega,
        show (128 * k + j + shift) % 128 = j - (128 - shift % 128) by omega]
      simp [hj, show ¬j < 128 - shift % 128 by omega]
    · rw [BitVec.getLsbD_ushiftRight, BitVec.getLsbD_of_ge _ _ (by omega),
        blockBit_of_le (by omega)]

theorem blockBit_shiftRightBlocks {shift : ℕ} (h : shift < 128 * blocks.length) (i : ℕ) :
    blockBit (shiftRightBlocks blocks shift) i = blockBit blocks (i + shift) := by
  by_cases hi : i / 128 < blocks.length
  · rw [blockBit, getD_shiftRightBlocks h hi, getLsbD_bitsOf,
      decide_eq_true (Nat.mod_lt _ (by omega)), Bool.true_and, Nat.div_add_mod]
  · rw [blockBit_of_le (by simp [shiftRightBlocks]; omega), blockBit_of_le (by omega)]

/-- The blocks of `operator>>=`. -/
def shiftRightAll (b : DynamicBitset) (shift : ℕ) : List Uint128 :=
  if shift = 0 then b.blocks
  else if b.size ≤ shift then List.replicate b.blocks.length 0
  else shiftRightBlocks b.blocks shift

theorem blockBit_shiftRightAll (b : DynamicBitset) (shift i : ℕ) :
    blockBit (b.shiftRightAll shift) i = b.bit (i + shift) := by
  rw [shiftRightAll]
  split
  · next h => rw [h]; rfl
  split
  · next h =>
    rw [bit_of_le (by omega), blockBit_replicate]
  · next h =>
    have := lt_blocksRequired (Nat.lt_of_not_le h)
    exact blockBit_shiftRightBlocks (by rw [b.blocks_length]; omega) i

/-- `operator>>=`. -/
def shiftRight (b : DynamicBitset) (shift : ℕ) : DynamicBitset where
  blocks := b.shiftRightAll shift
  size := b.size
  blocks_length := by
    rw [← b.blocks_length, shiftRightAll]
    split
    · rfl
    split <;> simp [shiftRightBlocks]
  unused i hi := by rw [blockBit_shiftRightAll, bit_of_le (by omega)]

theorem bit_shiftRight (b : DynamicBitset) (shift i : ℕ) :
    (b.shiftRight shift).bit i = b.bit (i + shift) :=
  b.blockBit_shiftRightAll shift i

end DynamicBitset

end Yacl
