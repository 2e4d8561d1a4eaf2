import Yacl.Base.Exception
import Yacl.Base.Int128
import Yacl.Lib.Bits

/-!
# The buffered generator

The model of `FillPRand` in its block modes and of the class template `Prg` of
`yacl/crypto/tools/prg.h`. A `Prg` hands out elements one by one from a buffer, the **budget**,
which `FillPRand` fills with the encryptions of consecutive counters. The encryption of a block
under a seed is an arbitrary function `encrypt`. The buffer is the memory of `BATCH_SIZE` elements,
as blocks; an element is a group of bytes of that memory, and a `bool` is a single bit of it.

Element `k` after a refill at the counter `c` is `batchOutput c k` (`next_at`): batch `k / size` of
the stream, whose counter is a `uint64_t`. This is the key stream from block `c` on as long as the
counter does not wrap around (`batchOutput_eq`).

* A new `Prg` has its consumed count set to `BATCH_SIZE`. For `bool` the budget has eight times as
  many elements, so the generator starts in the middle of a buffer of zeros
  (`prg_stream_iff`).
* `SetSeed` and `SetStatus` leave the budget as it is, so that the elements which are left in it
  come first (`prg_reseed_iff`).
-/

open Bits

namespace Yacl.Crypto

/-! ### Types and sizes -/

/-- `PRG_MODE`. -/
inductive PrgMode where
  | kAesEcb
  | kSm4Ecb
deriving DecidableEq, Repr

/-- The type `T` of the elements: a type of standard layout with `size` bytes, or `bool`. -/
inductive PrgElem where
  | standard (size : ℕ+)
  | bool
deriving DecidableEq

namespace PrgElem

/-- `sizeof(T)`. -/
def sizeof : PrgElem → ℕ
  | standard size => size
  | bool => 1

/-- The number of bits of an element in the budget. -/
def width : PrgElem → ℕ
  | standard size => 8 * size
  | bool => 1

/-- `uint128_t`. -/
abbrev block : PrgElem := standard 16

theorem width_pos : ∀ T : PrgElem, 0 < T.width
  | standard size => Nat.mul_pos (by omega) size.pos
  | bool => Nat.one_pos

end PrgElem

/-- `BATCH_SIZE`, with the static assertion of `Prg`. The budget is an object in memory. -/
structure BatchSize (T : PrgElem) where
  val : ℕ
  static_assert : val * T.sizeof % 16 = 0
  lt : val * T.sizeof < 2 ^ 64

namespace BatchSize

variable {T : PrgElem}

/-- `cipher_data_.cipher_budget_.size()`: the entries of an array, or the bits of a bitset. -/
def budgetSize : {T : PrgElem} → BatchSize T → ℕ
  | .standard _, B => B.val
  | .bool, B => 8 * B.val

/-- The number of blocks of the budget. -/
def numBlocks (B : BatchSize T) : ℕ := B.val * T.sizeof / 16

theorem budgetSize_mul_width (B : BatchSize T) : B.budgetSize * T.width = 128 * B.numBlocks := by
  have hdvd := B.static_assert
  rw [numBlocks]
  cases T with
  | standard size =>
    dsimp only [budgetSize, PrgElem.width, PrgElem.sizeof] at hdvd ⊢
    rw [Nat.mul_left_comm]
    omega
  | bool =>
    dsimp only [budgetSize, PrgElem.width, PrgElem.sizeof] at hdvd ⊢
    omega

theorem numBlocks_lt (B : BatchSize T) : B.numBlocks < 2 ^ 64 :=
  (Nat.div_le_self _ _).trans_lt B.lt

theorem budgetSize_pos {B : BatchSize T} (h : 0 < B.val) : 0 < B.budgetSize := by
  cases T with
  | standard size => exact h
  | bool => exact Nat.mul_pos (by omega) h

theorem budgetSize_eq_zero {B : BatchSize T} (h : B.val = 0) : B.budgetSize = 0 := by
  cases T with
  | standard size => exact h
  | bool => exact Nat.mul_eq_zero.mpr (.inr h)

end BatchSize

/-- Element `k` of the memory that a sequence of blocks takes. -/
def readElem (w : ℕ) (blocks : ℕ → Uint128) (k : ℕ) : BitVec w :=
  bitsOf w fun j => (blocks ((k * w + j) / 128)).getLsbD ((k * w + j) % 128)

theorem readElem_congr {w k : ℕ} {f g : ℕ → Uint128} (h : ∀ i, f i = g i) :
    readElem w f k = readElem w g k := by
  rw [funext h]

theorem readElem_add {w size n : ℕ} (h : size * w = 128 * n) (blocks : ℕ → Uint128) (b r : ℕ) :
    readElem w blocks (b * size + r) = readElem w (fun i => blocks (b * n + i)) r := by
  refine bitsOf_congr fun j _ => ?_
  have hpos : (b * size + r) * w + j = 128 * (b * n) + (r * w + j) := by
    rw [Nat.add_mul, Nat.mul_assoc, h, Nat.add_assoc, Nat.mul_left_comm]
  rw [hpos, Nat.mul_add_div (by omega), Nat.mul_add_mod]

/-! ### The generator -/

variable (encrypt : PrgMode → Uint128 → Uint128 → Uint128)

/-- `FillPRand` in the block modes: the increased counter, and the blocks whose first `nbytes` bytes
are the output. The counter is a `uint64_t`, and the blocks that are encrypted are `uint128_t`; only
the block of the last bytes, if they are less than a block, is computed with the counter. -/
def fillPRand (mode : PrgMode) (seed : Uint128) (count nbytes : ℕ) : ℕ × (ℕ → Uint128) :=
  let count := count % 2 ^ 64
  let nblock := (nbytes + 15) / 16
  let paddingBytes := nbytes % 16
  ((count + nblock) % 2 ^ 64, fun i =>
    if paddingBytes ≠ 0 ∧ i = nblock - 1 then
      encrypt mode seed (BitVec.ofNat 128 ((count + nblock - 1) % 2 ^ 64))
    else encrypt mode seed (BitVec.ofNat 128 (count + i)))

/-- `Prg<T, BATCH_SIZE>`. -/
structure CachedPrg (T : PrgElem) (B : BatchSize T) where
  /-- `seed_`. -/
  seed : Uint128
  /-- `counter_`. -/
  counter : Uint128
  /-- The memory of `cipher_data_`. -/
  cipherBudget : ℕ → Uint128
  /-- `num_consumed_`. -/
  numConsumed : ℕ
  /-- `mode_`. -/
  mode : PrgMode

/-- The calls that a `Prg` receives between its construction and a new seed. -/
inductive PrgCall where
  /-- `operator()`. -/
  | next
  /-- `Fill` of a span with `nbytes` bytes. -/
  | fill (nbytes : ℕ)
deriving DecidableEq

namespace CachedPrg

variable {T : PrgElem} {B : BatchSize T}

/-- `SetSeed`. -/
def setSeed (g : CachedPrg T B) (seed : Uint128) : CachedPrg T B :=
  { g with seed := seed, counter := 0 }

/-- `SetStatus`. -/
def setStatus (g : CachedPrg T B) (seed counter : Uint128) : CachedPrg T B :=
  { g with seed := seed, counter := counter }

/-- The constructor. -/
def make (seed : Uint128) (mode : PrgMode) : CachedPrg T B :=
  setSeed ⟨0, 0, fun _ => 0, B.val, mode⟩ seed

/-- `Fill`: the output, and the generator after it. -/
def fill (g : CachedPrg T B) (nbytes : ℕ) : (ℕ → Uint128) × CachedPrg T B :=
  let res := fillPRand encrypt g.mode g.seed g.counter.toNat nbytes
  (res.2, { g with counter := BitVec.ofNat 128 res.1 })

/-- `GenerateBudgets`. -/
def generateBudgets (g : CachedPrg T B) : CachedPrg T B :=
  let res := fillPRand encrypt g.mode g.seed g.counter.toNat (B.val * T.sizeof)
  { g with counter := BitVec.ofNat 128 res.1, cipherBudget := res.2 }

/-- The refill at the beginning of `operator()`. -/
def refill (g : CachedPrg T B) : CachedPrg T B :=
  if g.numConsumed = B.budgetSize then { g.generateBudgets encrypt with numConsumed := 0 } else g

/-- `operator()`, inside of the budget: an element, and the generator after it. -/
def next (g : CachedPrg T B) : BitVec T.width × CachedPrg T B :=
  let g := g.refill encrypt
  (readElem T.width g.cipherBudget g.numConsumed, { g with numConsumed := g.numConsumed + 1 })

/-- `operator()`. -/
def call (g : CachedPrg T B) : Except Exception (BitVec T.width × CachedPrg T B) :=
  if (g.refill encrypt).numConsumed < B.budgetSize then pure (g.next encrypt)
  else throw .undefinedBehaviour

/-- Many calls of `operator()`. -/
def skip (g : CachedPrg T B) : ℕ → Except Exception (CachedPrg T B)
  | 0 => pure g
  | n + 1 => do
    let g ← g.skip n
    let res ← g.call encrypt
    pure res.2

/-- The result of the call of `operator()` after `n` other ones. -/
def output (g : CachedPrg T B) (n : ℕ) : Except Exception (BitVec T.width) := do
  let g ← g.skip encrypt n
  let res ← g.call encrypt
  pure res.1

/-- One call. -/
def step (g : CachedPrg T B) : PrgCall → Except Exception (CachedPrg T B)
  | .next => do
    let res ← g.call encrypt
    pure res.2
  | .fill nbytes => pure (g.fill encrypt nbytes).2

/-- A sequence of calls. -/
def run (g : CachedPrg T B) (calls : List PrgCall) : Except Exception (CachedPrg T B) :=
  calls.foldlM (step encrypt) g

/-! ### Streams -/

/-- **The key stream** `Enc(seed, c), Enc(seed, c + 1), ...`, read as elements. -/
def keystream (T : PrgElem) (mode : PrgMode) (seed : Uint128) (c k : ℕ) : BitVec T.width :=
  readElem T.width (fun i => encrypt mode seed (BitVec.ofNat 128 (c + i))) k

/-- Element `k` after a refill at the counter `c`: the counter is reduced at the beginning of every
batch. -/
def batchOutput (B : BatchSize T) (mode : PrgMode) (seed : Uint128) (c k : ℕ) : BitVec T.width :=
  readElem T.width (fun i => encrypt mode seed (BitVec.ofNat 128
    ((c + k / B.budgetSize * B.numBlocks) % 2 ^ 64 + i))) (k % B.budgetSize)

variable {c k : ℕ}

/-- **The stream is the key stream** while the counter does not wrap around. -/
theorem batchOutput_eq (mode : PrgMode) (seed : Uint128)
    (h : c + k / B.budgetSize * B.numBlocks < 2 ^ 64) :
    batchOutput encrypt B mode seed c k = keystream encrypt T mode seed c k := by
  have hk : k = k / B.budgetSize * B.budgetSize + k % B.budgetSize := (Nat.div_add_mod' _ _).symm
  rw [batchOutput, keystream, Nat.mod_eq_of_lt h]
  conv_rhs => rw [hk, readElem_add B.budgetSize_mul_width]
  exact readElem_congr fun i => by rw [Nat.add_assoc]

variable {i : ℕ}

/-- The first batch whose counter does not fit is told from the key stream by an encryption that
looks at the high half of its input. -/
theorem exists_batchOutput_ne (hB : 0 < B.val) (hc : c < 2 ^ 128)
    (h : 2 ^ 64 ≤ c + i / B.budgetSize * B.numBlocks) :
    ∃ encrypt : PrgMode → Uint128 → Uint128 → Uint128, ∃ k ≤ i, ∀ mode seed,
      batchOutput encrypt B mode seed c k ≠ keystream encrypt T mode seed c k := by
  have hsize := BatchSize.budgetSize_pos hB
  obtain ⟨b, hb, hmin⟩ : ∃ b, 2 ^ 64 ≤ c + b * B.numBlocks ∧
      ∀ b' < b, c + b' * B.numBlocks < 2 ^ 64 := by
    have hex : ∃ b, 2 ^ 64 ≤ c + b * B.numBlocks := ⟨_, h⟩
    exact ⟨Nat.find hex, Nat.find_spec hex, fun b' hb' => not_le.mp (Nat.find_min hex hb')⟩
  have hle : b ≤ i / B.budgetSize := by
    by_contra hlt
    exact absurd h (not_le.mpr (hmin _ (by omega)))
  -- the counter of the batch is still a block
  have hfit : c + b * B.numBlocks < 2 ^ 128 := by
    rcases Nat.eq_zero_or_pos b with rfl | hpos
    · omega
    · have hprev := hmin (b - 1) (by omega)
      have hblocks := B.numBlocks_lt
      have hmul : b * B.numBlocks = (b - 1) * B.numBlocks + B.numBlocks := by
        conv_lhs => rw [show b = b - 1 + 1 by omega, Nat.add_mul, Nat.one_mul]
      omega
  refine ⟨fun _ _ x => if x.toNat < 2 ^ 64 then 0 else BitVec.allOnes 128, b * B.budgetSize,
    (Nat.le_div_iff_mul_le hsize).mp hle, fun mode seed heq => ?_⟩
  have hbit := congrArg (BitVec.getLsbD · 0) heq
  rw [keystream, ← Nat.add_zero (b * B.budgetSize), readElem_add B.budgetSize_mul_width,
    batchOutput, Nat.add_zero, Nat.mul_mod_left] at hbit
  simp only [readElem, getLsbD_bitsOf_of_lt T.width_pos, Nat.zero_mul, BitVec.toNat_ofNat] at hbit
  rw [if_pos (by omega), if_neg (by omega)] at hbit
  exact absurd hbit (by decide)

/-! ### The state between two refills -/

/-- **A generator that has given `k` elements** since a refill at the counter `c`: it has filled the
budget `b` times, and the budget holds the last of these batches. -/
structure At (mode : PrgMode) (seed : Uint128) (c k : ℕ) (g : CachedPrg T B) : Prop where
  mode_eq : g.mode = mode
  seed_eq : g.seed = seed
  consumed_le : g.numConsumed ≤ B.budgetSize
  batch : ∃ b, g.counter.toNat % 2 ^ 64 = (c + b * B.numBlocks) % 2 ^ 64 ∧
    k + (B.budgetSize - g.numConsumed) = b * B.budgetSize ∧
    (g.numConsumed < B.budgetSize → ∀ i, g.cipherBudget i = encrypt mode seed (BitVec.ofNat 128
      ((c + (b - 1) * B.numBlocks) % 2 ^ 64 + i)))

variable {g : CachedPrg T B}

theorem at_of_empty (h : g.numConsumed = B.budgetSize) :
    g.At encrypt g.mode g.seed g.counter.toNat 0 where
  mode_eq := rfl
  seed_eq := rfl
  consumed_le := h.le
  batch := ⟨0, by simp, by simp [h], fun hlt => absurd h hlt.ne⟩

variable {encrypt}
variable {mode : PrgMode} {seed : Uint128}

theorem At.refill (h : g.At encrypt mode seed c k) (hB : 0 < B.val) :
    (g.refill encrypt).At encrypt mode seed c k ∧
      (g.refill encrypt).numConsumed < B.budgetSize := by
  have hsize := BatchSize.budgetSize_pos hB
  by_cases hempty : g.numConsumed = B.budgetSize
  · obtain ⟨b, hcounter, hpos, -⟩ := h.batch
    have hblocks : (B.val * T.sizeof + 15) / 16 = B.numBlocks := by
      have hdvd := B.static_assert
      rw [BatchSize.numBlocks]
      omega
    rw [CachedPrg.refill, if_pos hempty]
    refine ⟨⟨h.mode_eq, h.seed_eq, Nat.zero_le _, b + 1, ?_, ?_, fun _ i => ?_⟩, hsize⟩
    · dsimp only [generateBudgets, fillPRand]
      rw [BitVec.toNat_ofNat, Nat.add_mul]
      omega
    · rw [Nat.add_mul]
      dsimp only
      omega
    · dsimp only [generateBudgets, fillPRand]
      rw [if_neg fun hpad => hpad.1 B.static_assert, h.mode_eq, h.seed_eq, hcounter,
        Nat.add_sub_cancel]
  · rw [CachedPrg.refill, if_neg hempty]
    exact ⟨h, lt_of_le_of_ne h.consumed_le hempty⟩

/-- **The next element** of a generator. -/
theorem next_at (h : g.At encrypt mode seed c k) (hB : 0 < B.val) :
    (g.next encrypt).1 = batchOutput encrypt B mode seed c k ∧
      (g.next encrypt).2.At encrypt mode seed c (k + 1) := by
  obtain ⟨h', hlt⟩ := h.refill hB
  obtain ⟨b, hcounter, hpos, hbudget⟩ := h'.batch
  dsimp only [next]
  generalize g.refill encrypt = g' at *
  -- the position is the consumed part of the last batch
  have hb : 0 < b := by
    by_contra h0
    have hzero : b = 0 := by omega
    rw [hzero] at hpos
    omega
  have hk : k = g'.numConsumed + B.budgetSize * (b - 1) := by
    obtain ⟨b, rfl⟩ : ∃ b', b = b' + 1 := ⟨b - 1, by omega⟩
    rw [Nat.add_sub_cancel, Nat.mul_comm]
    rw [Nat.add_mul] at hpos
    omega
  have hdiv : k / B.budgetSize = b - 1 := by
    rw [hk, Nat.add_mul_div_left _ _ (by omega), Nat.div_eq_of_lt hlt, Nat.zero_add]
  have hmod : k % B.budgetSize = g'.numConsumed := by
    rw [hk, Nat.add_mul_mod_self_left, Nat.mod_eq_of_lt hlt]
  constructor
  · rw [batchOutput, hdiv, hmod]
    exact readElem_congr (hbudget hlt)
  · refine ⟨h'.mode_eq, h'.seed_eq, hlt, b, hcounter, ?_, fun _ => hbudget hlt⟩
    dsimp only
    omega

theorem At.call (h : g.At encrypt mode seed c k) (hB : 0 < B.val) :
    g.call encrypt = .ok (g.next encrypt) := by
  rw [CachedPrg.call, if_pos (h.refill hB).2]
  rfl

theorem At.skip (h : g.At encrypt mode seed c k) (hB : 0 < B.val) (n : ℕ) :
    ∃ g', g.skip encrypt n = .ok g' ∧ g'.At encrypt mode seed c (k + n) := by
  induction n with
  | zero => exact ⟨g, rfl, h⟩
  | succ n ih =>
    obtain ⟨g', hg', hat⟩ := ih
    refine ⟨(g'.next encrypt).2, ?_, (next_at hat hB).2⟩
    rw [CachedPrg.skip, hg', ok_bind, hat.call hB]
    rfl

/-- **The outputs after a refill.** -/
theorem output_of_empty (h : g.numConsumed = B.budgetSize) (hB : 0 < B.val) (k : ℕ) :
    g.output encrypt k = .ok (batchOutput encrypt B g.mode g.seed g.counter.toNat k) := by
  obtain ⟨g', hg', hat⟩ := (at_of_empty encrypt h).skip hB k
  rw [output, hg', ok_bind, hat.call hB, ok_bind, (next_at hat hB).1, Nat.zero_add]
  rfl

/-- The first output of a generator whose budget is not used up comes from the budget. -/
theorem output_zero_of_lt (h : g.numConsumed < B.budgetSize) :
    g.output encrypt 0 = .ok (readElem T.width g.cipherBudget g.numConsumed) := by
  have hrefill : g.refill encrypt = g := if_neg h.ne
  have hskip : g.skip encrypt 0 = .ok g := rfl
  rw [output, hskip, ok_bind, CachedPrg.call, hrefill, if_pos h, next, hrefill]
  rfl

theorem output_zero_of_val_eq_zero (h : B.val = 0) :
    g.output encrypt 0 = .error .undefinedBehaviour := by
  have hskip : g.skip encrypt 0 = .ok g := rfl
  rw [output, hskip, ok_bind, CachedPrg.call,
    if_neg (by rw [BatchSize.budgetSize_eq_zero h]; exact Nat.not_lt_zero _)]
  rfl

/-! ### A new generator -/

theorem make_empty (hT : T ≠ .bool) (seed : Uint128) (mode : PrgMode) :
    (make seed mode : CachedPrg T B).numConsumed = B.budgetSize := by
  cases T with
  | standard size => rfl
  | bool => exact absurd rfl hT

/-- The encryption that gives ones under the key `1`, and zeros under all others. -/
def onesUnderOne (_ : PrgMode) (key _ : Uint128) : Uint128 :=
  if key = 1 then BitVec.allOnes 128 else 0

theorem getLsbD_keystream_ones (mode : PrgMode) (c k : ℕ) :
    (keystream onesUnderOne T mode 1 c k).getLsbD 0 = true := by
  rw [keystream, readElem, getLsbD_bitsOf_of_lt T.width_pos, onesUnderOne, if_pos rfl,
    BitVec.getLsbD_allOnes]
  exact decide_eq_true (Nat.mod_lt _ (by omega))

theorem getLsbD_batchOutput_ones (mode : PrgMode) (c k : ℕ) :
    (batchOutput onesUnderOne B mode 1 c k).getLsbD 0 = true := by
  rw [batchOutput, readElem, getLsbD_bitsOf_of_lt T.width_pos, onesUnderOne, if_pos rfl,
    BitVec.getLsbD_allOnes]
  exact decide_eq_true (Nat.mod_lt _ (by omega))

theorem getLsbD_readElem_zeros {w : ℕ} {blocks : ℕ → Uint128} (h : ∀ i, blocks i = 0) :
    (readElem w blocks k).getLsbD i = false := by
  rw [readElem, getLsbD_bitsOf, h]
  simp

theorem output_make_bool {B : BatchSize .bool} (hB : 0 < B.val) (seed : Uint128) (mode : PrgMode) :
    (make seed mode : CachedPrg .bool B).output encrypt 0 = .ok 0 := by
  have hlt : B.val < B.budgetSize := by
    dsimp only [BatchSize.budgetSize]
    omega
  rw [output_zero_of_lt hlt]
  refine congrArg Except.ok (BitVec.eq_of_getLsbD_eq fun i hi => ?_)
  exact (getLsbD_readElem_zeros fun _ => rfl).trans BitVec.getLsbD_zero.symm

/-- **The stream of a new generator**: the outputs `0, ..., i` are those of the key stream. -/
def StreamCorrect (T : PrgElem) (B : BatchSize T) (i : ℕ) : Prop :=
  ∀ encrypt mode seed, ∀ k ≤ i,
    (make seed mode : CachedPrg T B).output encrypt k = .ok (keystream encrypt T mode seed 0 k)

theorem not_streamCorrect_bool (B : BatchSize .bool) (i : ℕ) : ¬StreamCorrect .bool B i := by
  intro h
  have h0 := h onesUnderOne .kAesEcb 1 0 (Nat.zero_le i)
  rcases Nat.eq_zero_or_pos B.val with hB | hB
  · rw [output_zero_of_val_eq_zero hB] at h0
    exact absurd h0 (by rintro ⟨⟩)
  · rw [output_make_bool hB] at h0
    have hbit := congrArg (BitVec.getLsbD · 0) (Except.ok.inj h0)
    exact absurd hbit (by decide)

/-- **The outputs `0, ..., i` of a new generator** are those of the key stream, whatever the cipher
and the seed are, exactly if the elements are not `bool`, there is a budget, and the counter of the
batch of element `i` is a `uint64_t`. -/
theorem prg_stream_iff (T : PrgElem) (B : BatchSize T) (i : ℕ) : StreamCorrect T B i ↔
    T ≠ .bool ∧ 0 < B.val ∧ i / B.val * B.numBlocks < 2 ^ 64 := by
  cases T with
  | bool => exact iff_of_false (not_streamCorrect_bool B i) fun h => h.1 rfl
  | standard size =>
    have hempty := fun seed mode => make_empty (B := B) (by rintro ⟨⟩) seed mode
    constructor
    · intro h
      have hB : 0 < B.val := by
        by_contra hB
        have h0 := h onesUnderOne .kAesEcb 1 0 (Nat.zero_le i)
        rw [output_zero_of_val_eq_zero (by omega)] at h0
        exact absurd h0 (by rintro ⟨⟩)
      refine ⟨by rintro ⟨⟩, hB, ?_⟩
      by_contra hwrap
      obtain ⟨encrypt, k, hk, hne⟩ := exists_batchOutput_ne (c := 0) hB (by omega)
        (by rw [Nat.zero_add]; exact not_lt.mp hwrap)
      have hout := h encrypt .kAesEcb 1 k hk
      rw [output_of_empty (hempty _ _) hB] at hout
      exact hne _ _ (Except.ok.inj hout)
    · rintro ⟨-, hB, hwrap⟩ encrypt mode seed k hk
      rw [output_of_empty (hempty _ _) hB]
      refine congrArg Except.ok (batchOutput_eq encrypt mode seed ?_)
      have hdiv : k / B.budgetSize ≤ i / B.val := Nat.div_le_div_right hk
      calc 0 + k / B.budgetSize * B.numBlocks ≤ i / B.val * B.numBlocks := by
            rw [Nat.zero_add]; exact Nat.mul_le_mul_right _ hdiv
        _ < 2 ^ 64 := hwrap

/-- The first output of a `Prg<bool>` with the default size. -/
theorem not_streamCorrect_bool_default :
    ¬StreamCorrect .bool ⟨16, by decide, by decide⟩ 0 :=
  not_streamCorrect_bool _ 0

/-! ### A new seed -/

/-- What `operator()` and `Fill` do to the buffer: after `n` elements in all, the consumed part of
it is what `n` and the part that was consumed at first leave. -/
structure Ran (first n : ℕ) (g : CachedPrg T B) : Prop where
  consumed_pos : 0 < g.numConsumed
  consumed_le : g.numConsumed ≤ B.budgetSize
  count : ∃ b, n + first = g.numConsumed + b * B.budgetSize

variable {n : ℕ}

variable (encrypt) in
theorem Ran.call {first : ℕ} (h : g.Ran first n) (hB : 0 < B.val) :
    g.call encrypt = .ok (g.next encrypt) ∧ (g.next encrypt).2.Ran first (n + 1) := by
  have hsize := BatchSize.budgetSize_pos hB
  obtain ⟨b, hb⟩ := h.count
  by_cases hempty : g.numConsumed = B.budgetSize
  · have hrefill : (g.refill encrypt).numConsumed = 0 := by rw [CachedPrg.refill, if_pos hempty]
    refine ⟨by rw [CachedPrg.call, hrefill, if_pos hsize]; rfl, ?_, ?_, b + 1, ?_⟩
    · exact Nat.succ_pos _
    · dsimp only [next]
      omega
    · dsimp only [next]
      rw [Nat.add_mul, Nat.one_mul]
      omega
  · have hlt := lt_of_le_of_ne h.consumed_le hempty
    have hrefill : g.refill encrypt = g := if_neg hempty
    refine ⟨by rw [CachedPrg.call, hrefill, if_pos hlt]; rfl, ?_, ?_, b, ?_⟩
    · exact Nat.succ_pos _
    · dsimp only [next]
      rw [hrefill]
      omega
    · dsimp only [next]
      rw [hrefill]
      omega

variable (encrypt) in
/-- **Every sequence of calls** returns, if there is a budget. -/
theorem Ran.run {first : ℕ} (h : g.Ran first n) (hB : 0 < B.val) (calls : List PrgCall) :
    ∃ g', g.run encrypt calls = .ok g' ∧ g'.Ran first (n + calls.count .next) := by
  induction calls generalizing g n with
  | nil => exact ⟨g, rfl, h⟩
  | cons call calls ih =>
    cases call with
    | next =>
      obtain ⟨hcall, hran⟩ := h.call encrypt hB
      obtain ⟨g', hg', hran'⟩ := ih hran
      refine ⟨g', ?_, ?_⟩
      · rw [CachedPrg.run, List.foldlM_cons, step, hcall]
        exact hg'
      · rw [List.count_cons_self]
        convert hran' using 1
        omega
    | fill nbytes =>
      have hran : (g.fill encrypt nbytes).2.Ran first n :=
        ⟨h.consumed_pos, h.consumed_le, h.count⟩
      obtain ⟨g', hg', hran'⟩ := ih hran
      refine ⟨g', ?_, ?_⟩
      · rw [CachedPrg.run, List.foldlM_cons, step]
        exact hg'
      · rw [List.count_cons_of_ne (by rintro ⟨⟩)]
        exact hran'

variable {g' : CachedPrg T B} {calls : List PrgCall}

/-- **What every call keeps** holds after every sequence of calls. -/
theorem run_induction {P : CachedPrg T B → Prop} (hnext : ∀ g, P g → P (g.next encrypt).2)
    (hfill : ∀ g nbytes, P g → P (g.fill encrypt nbytes).2) (h : P g)
    (hrun : g.run encrypt calls = .ok g') : P g' := by
  induction calls generalizing g with
  | nil => exact Except.ok.inj hrun ▸ h
  | cons call calls ih =>
    obtain ⟨g₁, hstep, hrest⟩ := of_bind_eq_ok hrun
    refine ih ?_ hrest
    cases call with
    | next =>
      obtain ⟨res, hcall, hres⟩ := of_bind_eq_ok hstep
      rw [← Except.ok.inj hres]
      rw [CachedPrg.call] at hcall
      split at hcall
      · exact Except.ok.inj hcall ▸ hnext g h
      · exact absurd hcall (by rintro ⟨⟩)
    | fill nbytes => exact Except.ok.inj hstep ▸ hfill g nbytes h

theorem mode_refill (g : CachedPrg T B) : (g.refill encrypt).mode = g.mode := by
  rw [CachedPrg.refill]
  split
  · rfl
  · rfl

theorem seed_refill (g : CachedPrg T B) : (g.refill encrypt).seed = g.seed := by
  rw [CachedPrg.refill]
  split
  · rfl
  · rfl

theorem mode_of_run (h : g.run encrypt calls = .ok g') : g'.mode = g.mode :=
  run_induction (fun g' hg' => (mode_refill g').trans hg')
    (fun _ _ hg' => hg') rfl h

theorem budget_of_run_zeros (hseed : g.seed ≠ 1) (hzero : ∀ i, g.cipherBudget i = 0)
    (h : g.run onesUnderOne calls = .ok g') : ∀ i, g'.cipherBudget i = 0 := by
  refine (run_induction (P := fun g => g.seed ≠ 1 ∧ ∀ i, g.cipherBudget i = 0) ?_
    (fun _ _ hg => hg) ⟨hseed, hzero⟩ h).2
  rintro g ⟨hs, hz⟩
  refine ⟨(seed_refill g).symm ▸ hs, fun i => ?_⟩
  dsimp only [next]
  rw [CachedPrg.refill]
  split
  · dsimp only [generateBudgets, fillPRand, onesUnderOne]
    rw [if_neg hs, ite_self]
  · exact hz i

theorem make_ran (hB : 0 < B.val) (seed : Uint128) (mode : PrgMode) :
    (make seed mode : CachedPrg T B).Ran B.val 0 := by
  refine ⟨hB, ?_, 0, ?_⟩
  · cases T with
    | standard size => exact le_rfl
    | bool => exact Nat.le_mul_of_pos_left _ (by omega)
  · rw [Nat.zero_mul]
    exact Nat.add_comm _ _

theorem Ran.empty_iff {size : ℕ+} {B : BatchSize (.standard size)}
    {g : CachedPrg (.standard size) B} (h : g.Ran B.val n) :
    g.numConsumed = B.budgetSize ↔ B.val ∣ n := by
  have hsize : B.budgetSize = B.val := rfl
  obtain ⟨b, hb⟩ := h.count
  have hpos := h.consumed_pos
  have hle := h.consumed_le
  rw [hsize] at hb hle ⊢
  constructor
  · intro hempty
    exact ⟨b, by rw [Nat.mul_comm B.val]; omega⟩
  · rintro ⟨q, rfl⟩
    -- the consumed part is a multiple of the size, and not zero
    have hdvd : B.val ∣ g.numConsumed := by
      refine (Nat.dvd_add_left (Nat.dvd_mul_left B.val b)).mp ?_
      rw [← hb]
      exact Nat.dvd_add (Nat.dvd_mul_right _ _) (Nat.dvd_refl _)
    exact le_antisymm hle (Nat.le_of_dvd hpos hdvd)

/-- **A new seed after some calls.** After `SetSeed` the outputs `0, ..., i` are those of a new
generator, and after `SetStatus` those of the key stream from the counter on. -/
def ReseedCorrect (T : PrgElem) (B : BatchSize T) (calls : List PrgCall) (c : Uint128) (i : ℕ) :
    Prop :=
  ∀ encrypt mode seed s, ∃ g, (make seed mode : CachedPrg T B).run encrypt calls = .ok g ∧
    (∀ k ≤ i, (g.setSeed s).output encrypt k = (make s mode : CachedPrg T B).output encrypt k) ∧
    ∀ k ≤ i, (g.setStatus s c).output encrypt k = .ok (keystream encrypt T mode s c.toNat k)

/-- A budget that is left at the new seed is found out by a cipher that gives zeros under the old
seed and ones under the new one. -/
theorem ReseedCorrect.empty {c : Uint128} (h : ReseedCorrect T B calls c i) :
    ∃ g, (make 0 .kAesEcb : CachedPrg T B).run onesUnderOne calls = .ok g ∧
      g.numConsumed = B.budgetSize ∧ 0 < B.val ∧
      (g.setSeed 1).output onesUnderOne 0 =
        (make 1 .kAesEcb : CachedPrg T B).output onesUnderOne 0 := by
  obtain ⟨g, hrun, hseed, hstatus⟩ := h onesUnderOne .kAesEcb 0 1
  have h0 := hstatus 0 (Nat.zero_le i)
  have hB : 0 < B.val := by
    by_contra hB
    rw [output_zero_of_val_eq_zero (by omega)] at h0
    exact absurd h0 (by rintro ⟨⟩)
  refine ⟨g, hrun, ?_, hB, hseed 0 (Nat.zero_le i)⟩
  obtain ⟨g', hg', hran⟩ := (make_ran hB 0 .kAesEcb).run onesUnderOne hB calls
  obtain rfl : g' = g := Except.ok.inj (hg'.symm.trans hrun)
  by_contra hne
  have hlt : (g'.setStatus 1 c).numConsumed < B.budgetSize := lt_of_le_of_ne hran.consumed_le hne
  have hzero := budget_of_run_zeros (show (0 : Uint128) ≠ 1 by decide) (fun _ => rfl) hrun
  rw [output_zero_of_lt hlt] at h0
  have hbit := congrArg (BitVec.getLsbD · 0) (Except.ok.inj h0)
  simp only [getLsbD_keystream_ones, getLsbD_readElem_zeros hzero,
    setStatus] at hbit
  exact absurd hbit (by decide)

theorem not_reseedCorrect_bool (B : BatchSize .bool) (calls : List PrgCall) (c : Uint128) (i : ℕ) :
    ¬ReseedCorrect .bool B calls c i := by
  intro h
  obtain ⟨g, -, hempty, hB, hseed⟩ := h.empty
  rw [output_of_empty (g := g.setSeed 1) hempty hB, output_make_bool hB] at hseed
  have hbit := congrArg (BitVec.getLsbD · 0) (Except.ok.inj hseed)
  simp only [setSeed, getLsbD_batchOutput_ones] at hbit
  exact absurd hbit (by decide)

theorem not_reseedCorrect_of_not_dvd {size : ℕ+} {B : BatchSize (.standard size)}
    (hdvd : ¬B.val ∣ calls.count .next) (c : Uint128) (i : ℕ) :
    ¬ReseedCorrect (.standard size) B calls c i := by
  intro h
  obtain ⟨g, hrun, hempty, hB, -⟩ := h.empty
  obtain ⟨g', hg', hran⟩ := (make_ran hB 0 .kAesEcb).run onesUnderOne hB calls
  obtain rfl : g' = g := Except.ok.inj (hg'.symm.trans hrun)
  rw [Nat.zero_add] at hran
  exact hdvd (hran.empty_iff.mp hempty)

/-- **A new seed** after some calls gives the right outputs `0, ..., i`, whatever the cipher and the
seeds are, exactly if the elements are not `bool`, there is a budget, whole batches of it have been
used, and the counter of the batch of output `i` is a `uint64_t`. -/
theorem prg_reseed_iff (T : PrgElem) (B : BatchSize T) (calls : List PrgCall) (c : Uint128)
    (i : ℕ) : ReseedCorrect T B calls c i ↔ T ≠ .bool ∧ 0 < B.val ∧ B.val ∣ calls.count .next ∧
      c.toNat + i / B.val * B.numBlocks < 2 ^ 64 := by
  cases T with
  | bool => exact iff_of_false (not_reseedCorrect_bool B calls c i) fun h => h.1 rfl
  | standard size =>
    -- the outputs after whole batches
    have hwhole : 0 < B.val → B.val ∣ calls.count .next → ∀ encrypt mode seed,
        ∃ g, (make seed mode : CachedPrg (.standard size) B).run encrypt calls = .ok g ∧
          g.mode = mode ∧ g.numConsumed = B.budgetSize := by
      intro hB hdvd encrypt mode seed
      obtain ⟨g, hrun, hran⟩ := (make_ran hB seed mode).run encrypt hB calls
      rw [Nat.zero_add] at hran
      exact ⟨g, hrun, mode_of_run hrun, hran.empty_iff.mpr hdvd⟩
    constructor
    · intro h
      obtain ⟨-, -, -, hB, -⟩ := h.empty
      have hdvd : B.val ∣ calls.count .next := by
        by_contra hdvd
        exact not_reseedCorrect_of_not_dvd hdvd c i h
      refine ⟨by rintro ⟨⟩, hB, hdvd, ?_⟩
      by_contra hwrap
      obtain ⟨encrypt, k, hk, hne⟩ := exists_batchOutput_ne hB c.isLt (not_lt.mp hwrap)
      obtain ⟨g, hrun, -, hstatus⟩ := h encrypt .kAesEcb 0 1
      obtain ⟨g', hrun', hmode, hempty⟩ := hwhole hB hdvd encrypt .kAesEcb 0
      obtain rfl : g' = g := Except.ok.inj (hrun'.symm.trans hrun)
      have hout := hstatus k hk
      rw [output_of_empty (g := g'.setStatus 1 c) hempty hB] at hout
      refine hne g'.mode 1 ((Except.ok.inj hout).trans ?_)
      rw [hmode]
    · rintro ⟨-, hB, hdvd, hwrap⟩ encrypt mode seed s
      obtain ⟨g, hrun, hmode, hempty⟩ := hwhole hB hdvd encrypt mode seed
      refine ⟨g, hrun, fun k _ => ?_, fun k hk => ?_⟩
      · rw [output_of_empty (g := g.setSeed s) hempty hB,
          output_of_empty (make_empty (by rintro ⟨⟩) s mode) hB]
        dsimp only [setSeed, make]
        rw [hmode]
      · rw [output_of_empty (g := g.setStatus s c) hempty hB]
        dsimp only [setStatus]
        rw [hmode]
        refine congrArg Except.ok (batchOutput_eq encrypt mode s ?_)
        have hdiv : k / B.budgetSize ≤ i / B.val := Nat.div_le_div_right hk
        calc c.toNat + k / B.budgetSize * B.numBlocks
            ≤ c.toNat + i / B.val * B.numBlocks :=
              Nat.add_le_add_left (Nat.mul_le_mul_right _ hdiv) _
          _ < 2 ^ 64 := hwrap

/-- A `Prg<uint128_t>` with the default size that has given one block. -/
theorem not_reseedCorrect_block :
    ¬ReseedCorrect .block ⟨16, by decide, by decide⟩ [.next] 0 0 :=
  not_reseedCorrect_of_not_dvd (by decide) 0 0

end CachedPrg

end Yacl.Crypto
