import Yacl.Base.SecParam
import Yacl.Kernel.Gywz

/-!
# Multi-point function secret sharing

The model of `yacl/kernel/algorithms/mpfss.h` and `mpfss.cc`. The output is cut into bins, one for
each noisy position, and for each bin the two parties run a GYWZ single-point COT, whose index is
the noisy position in the bin. Hashing the leaves breaks the correlation: the vectors of the two
parties are then equal except at the index, where they have nothing in common. The sender sends the
sum of its bin minus a weight `w`, and the receiver corrects its entry at the index by what is left
of that sum when its own bin is subtracted.

There are four versions of either program: for entries of `128` bits, which are grown in place, and
of `64` bits, which are grown in a buffer; and with indexes that the receiver chooses, or that the
choices of the transfers spell. The latter send the messages of sixteen bins at a time. A `MpfssMem`
is what a version does with its memory; everything else is shared.
-/

open Bits Loop TwoParty Proc PuncturedTree XorSum Yacl.Math

namespace Yacl.Crypto

/-- `MpFssParam`. The fields that the constructor computes from the others are functions below. -/
structure MpFssParam where
  noiseNum : ℕ
  mpVoleSize : ℕ
  assumption : LpnNoiseAsm
  indexes : List ℕ
  isMal : Bool
  assumption_eq : assumption = .regularNoise
  noiseNum_pos : 0 < noiseNum
  spVoleSize_gt : 1 < mpVoleSize / noiseNum
  /-- The size is a `uint64_t`. -/
  mpVoleSize_lt : mpVoleSize < 2 ^ 64

namespace MpFssParam

/-- The constructor, with no indexes yet. -/
def make (noiseNum mpVoleSize : ℕ) (h64 : mpVoleSize < 2 ^ 64) (assumption : LpnNoiseAsm)
    (mal : Bool) : Except Exception MpFssParam := do
  let ⟨hasm⟩ ← enforceProof (assumption = .regularNoise)
    "assumption == LpnNoiseAsm::RegularNoise" ""
  let ⟨hpos⟩ ← enforceProof (0 < noiseNum) "noise_num > 0" ""
  let ⟨hgt⟩ ← enforceProof (1 < mpVoleSize / noiseNum) "sp_vole_size_ > 1"
    ("The size of SpVole should be greater than 1, because " ++
      "1-out-of-1 SpVole is meaningless")
  pure ⟨noiseNum, mpVoleSize, assumption, [], mal, hasm, hpos, hgt, h64⟩

variable (p : MpFssParam)

/-- `base_vole_num_`. -/
def baseVoleNum : ℕ := if p.isMal = false then p.noiseNum else p.noiseNum + 1

/-- `sp_vole_size_`: the size of all bins but the last one. -/
def spVoleSize : ℕ := p.mpVoleSize / p.noiseNum

/-- `last_sp_vole_size_`. -/
def lastSpVoleSize : ℕ := p.mpVoleSize - (p.noiseNum - 1) * p.spVoleSize

/-- `require_ot_num_`. -/
def requireOtNum : ℕ := ceilLog2 p.spVoleSize * (p.noiseNum - 1) + ceilLog2 p.lastSpVoleSize

/-- The size of bin `i`. -/
def binSize (i : ℕ) : ℕ := if i = p.noiseNum - 1 then p.lastSpVoleSize else p.spVoleSize

/-- The index in bin `i`. -/
def index (i : ℕ) : ℕ := p.indexes.getD i 0

/-- The parameters with other indexes. -/
def withIndexes (indexes : List ℕ) : MpFssParam := { p with indexes := indexes }

/-- The body of the loop of `SetIndexes`. -/
def setIndex (indexes : List ℕ) (i : ℕ) (l : List ℕ) : Except Exception (List ℕ) := do
  let index ← vecGet indexes i
  vecSet l i (index % p.spVoleSize)

/-- The loop of `SetIndexes`, whose counter is a `uint32_t`. -/
def setIndexesLoop (indexes : List ℕ) : Except Exception (List ℕ) :=
  if p.noiseNum - 1 < 2 ^ 32 then forLoop (p.noiseNum - 1) (p.setIndex indexes) p.indexes
  else throw .nonTermination

/-- `SetIndexes`. The last index is not read from the argument: the one that is there already is
reduced. -/
def setIndexes (indexes : List ℕ) : Except Exception MpFssParam := do
  enforce (indexes.length ≥ p.noiseNum) "indexes.size() >= noise_num_" ""
  let l ← p.setIndexesLoop indexes
  let last ← vecGet l (p.noiseNum - 1)
  let l ← vecSet l (p.noiseNum - 1) (last % p.lastSpVoleSize)
  pure (p.withIndexes l)

/-- `choices.set(pos++, indexes_[i] & mask)`, where `mask` is `2 ^ k`. -/
def genChoicesBit (i k : ℕ) (s : DynamicBitset × ℕ) : Except Exception (DynamicBitset × ℕ) := do
  let index ← vecGet p.indexes i
  if h : s.2 < s.1.size then pure (s.1.set s.2 (index.testBit k) h, s.2 + 1)
  else throw .undefinedBehaviour

/-- The body of the loop of `GenChoices`: the loop over `mask` ends at the power of two `bound`. -/
def genChoicesBin (i : ℕ) (s : DynamicBitset × ℕ) : Except Exception (DynamicBitset × ℕ) := do
  let thisLength ← log2Ceil (p.binSize i)
  let bound := shl32 1 thisLength
  forLoop bound.toNat.log2 (p.genChoicesBit i) s

/-- `GenChoices`. -/
def genChoices : Except Exception DynamicBitset := do
  enforce (p.indexes.length = p.noiseNum) "indexes_.size() == noise_num_" ""
  let s ← forLoop p.noiseNum p.genChoicesBin (.ofSize p.requireOtNum, 0)
  pure s.1

end MpFssParam

/-- `MpfssOp`: the addition and the subtraction of the entries, which the caller chooses. -/
structure MpfssOp (α : Type) where
  add : α → α → α
  sub : α → α → α

/-- `std::reduce` over `size` entries. The order of the sum is not specified; it does not matter for
an operation that is associative and commutative. -/
def MpfssOp.reduce {α : Type} (op : MpfssOp α) (init : α) (size : ℕ) (f : ℕ → α) : α :=
  ((List.range size).map f).foldl op.add init

/-- `Buffer(size)`, read as blocks. The content of a fresh buffer is not initialised; it is zero
here, and no program reads an entry that it has not written. -/
def newBuffer (size : ℤ) : Except Exception (List Uint128) := do
  enforce (size ≥ 0) "size >= 0" ""
  pure (List.replicate (size.toNat / 16) 0)

/-- The memory of a program for entries of `n` bytes. -/
structure MpfssMem (n : ℕ) (σ : Type) where
  /-- The name of the type of the entries. -/
  typeName : String
  /-- What a program with chosen indexes allocates besides the output. -/
  alloc : MpFssParam → List (BitVec (8 * n)) → Except Exception σ
  /-- What a program with fixed indexes allocates besides the output. -/
  allocFixed : MpFssParam → List (BitVec (8 * n)) → Except Exception σ
  output : σ → List (BitVec (8 * n))
  /-- The span in which the tree of the bin at a position is grown. -/
  span : σ → (pos size : ℕ) → Except Exception (List Uint128)
  /-- The number of leaves of a tree with a fixed index, for a bin of a size and its logarithm. -/
  treeSize : (size length : ℕ) → ℕ
  /-- The leaves are stored, and the first `size` of them copied to the output. -/
  put : σ → (pos size : ℕ) → List Uint128 → Except Exception σ

/-- Entries of `128` bits are grown in the output. -/
def mpfssMem128 : MpfssMem 16 (List Uint128) where
  typeName := "uint128_t"
  alloc _ out := pure out
  allocFixed _ out := pure out
  output out := out
  span out pos size := subspan out pos size
  treeSize size _ := size
  put out pos size leaves := writeSpan out pos size fun j => leaves.getD j 0

/-- Entries of `64` bits are grown in a buffer, and cut off when they are copied to the output. With
fixed indexes the trees are full, of `1 << length` leaves, where the shift is one of `int`. -/
def mpfssMem64 : MpfssMem 8 (List (BitVec (8 * 8)) × List Uint128) where
  typeName := "uint64_t"
  alloc p out := do pure (out, ← newBuffer (max p.spVoleSize p.lastSpVoleSize * 16))
  allocFixed p out := do
    let maxLength := max (← log2Ceil p.spVoleSize) (← log2Ceil p.lastSpVoleSize)
    pure (out, ← newBuffer ((shl32 1 maxLength).toInt * 16))
  output s := s.1
  span s _ size := subspan s.2 0 size
  treeSize _ length := (shl32 1 length).toNat
  put s pos size leaves := do
    let buf ← writeSpan s.2 0 leaves.length fun j => leaves.getD j 0
    let out ← writeSpan s.1 pos size fun j => (leaves.getD j 0).setWidth (8 * 8)
    pure (out, buf)

/-- `for (uint32_t i = 0; i < n; ++i)`: for a bound that the counter cannot reach, the loop never
ends. -/
def forLoop32 {σ : Type} (n : ℕ) (body : ℕ → σ → Party σ) (s : σ) : Party σ :=
  if n < 2 ^ 32 then forLoop n body s else Proc.throw .nonTermination

variable (T : Tools) {n : ℕ} {σ : Type} (M : MpfssMem n σ) (op : MpfssOp (BitVec (8 * n)))
  (p : MpFssParam)

/-- The end of the work on a bin: `size` leaves are hashed and stored, and added to the sum. -/
def mpfssBin (pos size : ℕ) (leaves : List Uint128) (st : σ) (sum : BitVec (8 * n)) :
    Except Exception (σ × BitVec (8 * n)) := do
  let leaves := paraCrHashInplace128 T (leaves.take size) ++ leaves.drop size
  let st ← M.put st pos size leaves
  let entries ← readSpan (M.output st) pos size 0
  pure (st, op.reduce sum size entries)

/-- The body of the last loop of the receiver: the entry at the index is corrected. -/
def mpfssCorrect (indexes : List ℕ) (recvMsgs dpfSum : ℕ → BitVec (8 * n)) (i : ℕ)
    (output : List (BitVec (8 * n))) : Except Exception (List (BitVec (8 * n))) := do
  let tmp := op.sub (recvMsgs i) (dpfSum i)
  let index ← vecGet indexes i
  let old ← vecGet output (i * p.spVoleSize + index)
  vecSet output (i * p.spVoleSize + index) (op.add old tmp)

/-- The last loop of the receiver, over the messages in a buffer. Its counter is a `uint32_t`. -/
def mpfssCorrectAll (indexes : List ℕ) (recvBuf : List Bytes.Byte) (dpfSum : ℕ → BitVec (8 * n))
    (output : List (BitVec (8 * n))) : Except Exception (List (BitVec (8 * n))) :=
  if p.noiseNum < 2 ^ 32 then
    forLoop p.noiseNum (mpfssCorrect op p indexes (Bytes.wordAt n recvBuf) dpfSum) output
  else throw .nonTermination

/-! ### Chosen indexes -/

/-- The body of the loop of `MpfssSend`, with the seeds that the trees draw. -/
def mpfssSendStep (cot : OtSendStore) (seed : ℕ → Uint128) (i : ℕ)
    (s : σ × (ℕ → BitVec (8 * n))) : Party (σ × (ℕ → BitVec (8 * n))) := do
  let thisSize := p.binSize i
  let thisSpan ← M.span s.1 (i * p.spVoleSize) thisSize
  let batchLength ← log2Ceil p.spVoleSize
  let thisLength ← log2Ceil thisSize
  let otSlice ← cot.slice (i * batchLength) (i * batchLength + thisLength)
  let thisSpan ← gywzOtExtSend T (seed i) otSlice (thisSize % 2 ^ 32) thisSpan
  let (st, sum) ← mpfssBin T M op (i * p.spVoleSize) thisSize thisSpan s.1 (s.2 i)
  pure (st, Function.update s.2 i sum)

/-- `MpfssSend`; the result is `output` after the call. -/
def mpfssSend (cot : OtSendStore) (seed : ℕ → Uint128) (w output : List (BitVec (8 * n))) :
    Party (List (BitVec (8 * n))) := do
  enforce (p.assumption = .regularNoise) "param.assumption_ == LpnNoiseAsm::RegularNoise" ""
  enforce (output.length ≥ p.mpVoleSize) "output.size() >= param.mp_vole_size_" ""
  enforce (w.length ≥ p.noiseNum) "w.size() >= param.noise_num_" ""
  enforce (cot.size ≥ p.requireOtNum) "send_ot.Size() >= param.require_ot_num_" ""
  let st ← M.alloc p output
  let (st, sendMsgs) ← forLoop32 p.noiseNum (mpfssSendStep T M op p cot seed)
    (st, fun i => op.sub 0 (w.getD i 0))
  sendAsync (Bytes.encode n ((List.range p.noiseNum).map sendMsgs))
  pure (M.output st)

/-- The body of the loop of `MpfssRecv`. -/
def mpfssRecvStep (cot : OtRecvStore) (i : ℕ) (s : σ × (ℕ → BitVec (8 * n))) :
    Party (σ × (ℕ → BitVec (8 * n))) := do
  let thisSize := p.binSize i
  let thisSpan ← M.span s.1 (i * p.spVoleSize) thisSize
  let batchLength ← log2Ceil p.spVoleSize
  let thisLength ← log2Ceil thisSize
  let otSlice ← cot.slice (i * batchLength) (i * batchLength + thisLength)
  let index ← vecGet p.indexes i
  let thisSpan ← gywzOtExtRecv T otSlice (thisSize % 2 ^ 32) index thisSpan
  let (st, sum) ← mpfssBin T M op (i * p.spVoleSize) thisSize thisSpan s.1 (s.2 i)
  pure (st, Function.update s.2 i sum)

/-- `MpfssRecv`; the result is `output` after the call. -/
def mpfssRecv (cot : OtRecvStore) (output : List (BitVec (8 * n))) :
    Party (List (BitVec (8 * n))) := do
  enforce (p.assumption = .regularNoise) "param.assumption_ == LpnNoiseAsm::RegularNoise" ""
  enforce (output.length ≥ p.mpVoleSize) "output.size() >= param.mp_vole_size_" ""
  enforce (cot.size ≥ p.requireOtNum) "recv_ot.Size() >= param.require_ot_num_" ""
  let st ← M.alloc p output
  let (st, dpfSum) ← forLoop32 p.noiseNum (mpfssRecvStep T M op p cot) (st, fun _ => 0)
  let recvBuf ← recv
  enforce (recvBuf.length ≥ p.noiseNum * n)
    s!"static_cast<uint64_t>(recv_buff.size()) >= batch_num * sizeof({M.typeName})" ""
  mpfssCorrectAll op p p.indexes recvBuf dpfSum (M.output st)

/-! ### Fixed indexes -/

/-- `super_batch_num`, with `kSuperBatch = 16`. -/
def superBatchNum : ℕ := divCeil p.noiseNum 16

/-- `bound`: the number of bins in super-batch `s`. -/
def superBound (s : ℕ) : ℕ := min 16 ((p.noiseNum - s * 16 % 2 ^ 32) % 2 ^ 32)

/-- `batch_idx`. -/
def batchIdx (s i : ℕ) : ℕ := (s * 16 + i) % 2 ^ 32

/-- `this_size` of bin `i` of super-batch `s`. -/
def superBinSize (s i : ℕ) : ℕ :=
  if s = superBatchNum p - 1 ∧ i = superBound p s - 1 then p.lastSpVoleSize else p.spVoleSize

/-- `msg_length`: the number of blocks that are sent for super-batch `s`. -/
def superMsgLength (s : ℕ) : Except Exception ℕ := do
  let batchLength ← log2Ceil p.spVoleSize
  let lastBatchLength ← log2Ceil p.lastSpVoleSize
  pure (if s = superBatchNum p - 1 then (superBound p s - 1) * batchLength + lastBatchLength
    else 16 * batchLength)

/-- The state of `MpfssSend_fixed_index`. -/
structure MpfssSendState (n : ℕ) (σ : Type) where
  mem : σ
  dpfSum : ℕ → BitVec (8 * n)
  gywzSendMsgs : List Uint128

/-- The body of the inner loop of `MpfssSend_fixed_index`. -/
def mpfssSendFixedBin (cot : OtSendStore) (seed : ℕ → Uint128) (s i : ℕ)
    (x : MpfssSendState n σ) : Except Exception (MpfssSendState n σ) := do
  let batchLength ← log2Ceil p.spVoleSize
  let thisSize := superBinSize p s i
  let thisLength ← log2Ceil thisSize
  let fullSize := M.treeSize thisSize thisLength
  let batchIdx := batchIdx s i
  let thisSpan ← M.span x.mem (batchIdx * p.spVoleSize) fullSize
  let otSlice ← cot.slice (batchIdx * batchLength) (batchIdx * batchLength + thisLength)
  let (thisSpan, msgs) ← gywzOtExtSendFixedIndexMsgs T (seed batchIdx) otSlice (fullSize % 2 ^ 32)
    thisSpan thisLength
  let gywzSendMsgs ← writeSpan x.gywzSendMsgs (i * batchLength) thisLength msgs
  let (mem, sum) ←
    mpfssBin T M op (batchIdx * p.spVoleSize) thisSize thisSpan x.mem (x.dpfSum batchIdx)
  pure ⟨mem, Function.update x.dpfSum batchIdx sum, gywzSendMsgs⟩

/-- The body of the outer loop of `MpfssSend_fixed_index`. -/
def mpfssSendSuper (cot : OtSendStore) (seed : ℕ → Uint128) (s : ℕ) (x : MpfssSendState n σ) :
    Party (MpfssSendState n σ) := do
  let x ← (forLoop (superBound p s) (mpfssSendFixedBin T M op p cot seed s) x :
    Except Exception (MpfssSendState n σ))
  let msgLength ← superMsgLength p s
  let msgs ← readSpan x.gywzSendMsgs 0 msgLength 0
  sendAsync (blockBytes msgLength msgs)
  pure x

/-- `MpfssSend_fixed_index`; the result is `output` after the call. -/
def mpfssSendFixedIndex (cot : OtSendStore) (seed : ℕ → Uint128)
    (w output : List (BitVec (8 * n))) : Party (List (BitVec (8 * n))) := do
  enforce (p.assumption = .regularNoise) "param.assumption_ == LpnNoiseAsm::RegularNoise" ""
  enforce (output.length ≥ p.mpVoleSize) "output.size() >= param.mp_vole_size_" ""
  enforce (w.length ≥ p.noiseNum) "w.size() >= param.noise_num_" ""
  enforce (cot.size ≥ p.requireOtNum) "send_ot.Size() >= param.require_ot_num_" ""
  let batchLength ← log2Ceil p.spVoleSize
  let lastBatchLength ← log2Ceil p.lastSpVoleSize
  let mem ← M.allocFixed p output
  let x ← forLoop32 (superBatchNum p) (mpfssSendSuper T M op p cot seed)
    ⟨mem, fun i => op.sub 0 (w.getD i 0), List.replicate (batchLength * 15 + lastBatchLength) 0⟩
  sendAsync (Bytes.encode n ((List.range p.noiseNum).map x.dpfSum))
  pure (M.output x.mem)

/-- The state of `MpfssRecv_fixed_index`. -/
structure MpfssRecvState (n : ℕ) (σ : Type) where
  mem : σ
  dpfSum : ℕ → BitVec (8 * n)
  indexes : List ℕ

/-- The body of the inner loop of `MpfssRecv_fixed_index`, with the messages of the super-batch. -/
def mpfssRecvFixedBin (cot : OtRecvStore) (gywzRecvMsgs : ℕ → Uint128) (s i : ℕ)
    (x : MpfssRecvState n σ) : Except Exception (MpfssRecvState n σ) := do
  let batchLength ← log2Ceil p.spVoleSize
  let thisSize := superBinSize p s i
  let thisLength ← log2Ceil thisSize
  let fullSize := M.treeSize thisSize thisLength
  let batchIdx := batchIdx s i
  let thisSpan ← M.span x.mem (batchIdx * p.spVoleSize) fullSize
  let otSlice ← cot.slice (batchIdx * batchLength) (batchIdx * batchLength + thisLength)
  let realIndex ← choicesToIndex otSlice thisLength
  let index ← vecGet x.indexes batchIdx
  let indexes ← vecSetIf (index ≠ realIndex.toNat) x.indexes batchIdx realIndex.toNat
  let thisSpan ← gywzOtExtRecvFixedIndexMsgs T otSlice (fullSize % 2 ^ 32) thisSpan thisLength
    fun k => gywzRecvMsgs (i * batchLength + k)
  let (mem, sum) ←
    mpfssBin T M op (batchIdx * p.spVoleSize) thisSize thisSpan x.mem (x.dpfSum batchIdx)
  pure ⟨mem, Function.update x.dpfSum batchIdx sum, indexes⟩

/-- The body of the outer loop of `MpfssRecv_fixed_index`. -/
def mpfssRecvSuper (cot : OtRecvStore) (s : ℕ) (x : MpfssRecvState n σ) :
    Party (MpfssRecvState n σ) := do
  let msgLength ← superMsgLength p s
  let gywzRecvBuf ← recv
  enforce (gywzRecvBuf.length = msgLength * 16)
    "gywz_recv_buf.size() == static_cast<int64_t>(msg_length * sizeof(uint128_t))" ""
  (forLoop (superBound p s) (mpfssRecvFixedBin T M op p cot (Bytes.wordAt 16 gywzRecvBuf) s) x :
    Except Exception (MpfssRecvState n σ))

/-- `MpfssRecv_fixed_index`; the results are `output` and `param.indexes_` after the call. -/
def mpfssRecvFixedIndex (cot : OtRecvStore) (output : List (BitVec (8 * n))) :
    Party (List (BitVec (8 * n)) × List ℕ) := do
  enforce (p.assumption = .regularNoise) "param.assumption_ == LpnNoiseAsm::RegularNoise" ""
  enforce (output.length ≥ p.mpVoleSize) "output.size() >= param.mp_vole_size_" ""
  enforce (cot.size ≥ p.requireOtNum) "recv_ot.Size() >= param.require_ot_num_" ""
  let mem ← M.allocFixed p output
  let x ← forLoop32 (superBatchNum p) (mpfssRecvSuper T M op p cot) ⟨mem, fun _ => 0, p.indexes⟩
  let recvBuf ← recv
  enforce (recvBuf.length = p.noiseNum * n)
    s!"static_cast<uint64_t>(recv_buff.size()) == batch_num * sizeof({M.typeName})" ""
  let output ← mpfssCorrectAll op p x.indexes recvBuf x.dpfSum (M.output x.mem)
  pure (output, x.indexes)

/-! ### The layout of the bins -/

namespace MpFssParam

theorem one_lt_spVoleSize : 1 < p.spVoleSize := p.spVoleSize_gt

theorem mul_spVoleSize_le : (p.noiseNum - 1) * p.spVoleSize + p.spVoleSize ≤ p.mpVoleSize := by
  have hmul : p.noiseNum * p.spVoleSize ≤ p.mpVoleSize := Nat.mul_div_le _ _
  have hpos := p.noiseNum_pos
  rwa [← Nat.succ_mul, Nat.succ_eq_add_one, Nat.sub_add_cancel hpos]

theorem spVoleSize_le_last : p.spVoleSize ≤ p.lastSpVoleSize := by
  have := p.mul_spVoleSize_le
  rw [lastSpVoleSize]
  omega

theorem spVoleSize_le_binSize (i : ℕ) : p.spVoleSize ≤ p.binSize i := by
  rw [binSize]
  split
  · exact p.spVoleSize_le_last
  · exact le_rfl

theorem binSize_le_last (i : ℕ) : p.binSize i ≤ p.lastSpVoleSize := by
  rw [binSize]
  split
  · exact le_rfl
  · exact p.spVoleSize_le_last

theorem one_lt_binSize (i : ℕ) : 1 < p.binSize i :=
  p.one_lt_spVoleSize.trans_le (p.spVoleSize_le_binSize i)

/-- The end of the first `k` bins. -/
def start (k : ℕ) : ℕ := if k < p.noiseNum then k * p.spVoleSize else p.mpVoleSize

theorem start_zero : p.start 0 = 0 := by
  rw [start, if_pos p.noiseNum_pos, Nat.zero_mul]

theorem start_noiseNum : p.start p.noiseNum = p.mpVoleSize := if_neg (by omega)

variable {i : ℕ}

theorem start_of_lt (hi : i < p.noiseNum) : p.start i = i * p.spVoleSize := if_pos hi

theorem start_succ (hi : i < p.noiseNum) : p.start (i + 1) = i * p.spVoleSize + p.binSize i := by
  have hle := p.mul_spVoleSize_le
  rw [start, binSize]
  rcases Nat.lt_or_ge (i + 1) p.noiseNum with h | h
  · rw [if_pos h, if_neg (by omega), Nat.succ_mul]
  · obtain rfl : i = p.noiseNum - 1 := by omega
    rw [if_neg (by omega), if_pos rfl, lastSpVoleSize]
    omega

theorem start_le (k : ℕ) : p.start k ≤ p.mpVoleSize := by
  rw [start]
  split
  · next h =>
    exact (Nat.mul_le_mul_right _ (by omega)).trans
      ((Nat.le_add_right _ _).trans p.mul_spVoleSize_le)
  · exact le_rfl

theorem add_binSize_le (hi : i < p.noiseNum) : i * p.spVoleSize + p.binSize i ≤ p.mpVoleSize :=
  (p.start_succ hi).symm.trans_le (p.start_le _)

/-- The bin of a position. -/
def bin (q : ℕ) : ℕ := min (q / p.spVoleSize) (p.noiseNum - 1)

/-- The place of a position in its bin. -/
def off (q : ℕ) : ℕ := q - p.bin q * p.spVoleSize

theorem bin_add {j : ℕ} (hi : i < p.noiseNum) (hj : j < p.binSize i) :
    p.bin (i * p.spVoleSize + j) = i := by
  have hpos : 0 < p.spVoleSize := Nat.zero_lt_of_lt p.one_lt_spVoleSize
  rw [bin, Nat.add_comm, Nat.add_mul_div_right _ _ hpos]
  rw [binSize] at hj
  split at hj
  · next h => rw [h, min_eq_right (Nat.le_add_left _ _)]
  · rw [Nat.div_eq_of_lt hj]
    omega

theorem off_add {j : ℕ} (hi : i < p.noiseNum) (hj : j < p.binSize i) :
    p.off (i * p.spVoleSize + j) = j := by
  rw [off, p.bin_add hi hj, Nat.add_sub_cancel_left]

theorem bin_lt (q : ℕ) : p.bin q < p.noiseNum := by
  have := p.noiseNum_pos
  rw [bin]
  omega

theorem bin_mul_add_off (q : ℕ) : p.bin q * p.spVoleSize + p.off q = q := by
  have hle : p.bin q * p.spVoleSize ≤ q :=
    (Nat.mul_le_mul_right _ (min_le_left _ _)).trans (Nat.div_mul_le_self _ _)
  rw [off]
  omega

theorem off_lt {q : ℕ} (hq : q < p.mpVoleSize) : p.off q < p.binSize (p.bin q) := by
  have hpos : 0 < p.spVoleSize := Nat.zero_lt_of_lt p.one_lt_spVoleSize
  have heq := p.bin_mul_add_off q
  rcases Nat.lt_or_ge (q / p.spVoleSize) (p.noiseNum - 1) with h | h
  · have hbin : p.bin q = q / p.spVoleSize := min_eq_left h.le
    rw [binSize, if_neg (by omega), off, hbin]
    have := Nat.div_add_mod' q p.spVoleSize
    have := Nat.mod_lt q hpos
    omega
  · have hbin : p.bin q = p.noiseNum - 1 := min_eq_right h
    rw [binSize, if_pos hbin, lastSpVoleSize]
    rw [hbin] at heq
    omega

/-- The values of a table, laid out in the bins. -/
def layout {α : Type} (f : ℕ → ℕ → α) (q : ℕ) : α := f (p.bin q) (p.off q)

theorem overwrite_layout {α : Type} (out : List α) (f : ℕ → ℕ → α) (hi : i < p.noiseNum) {g : ℕ → α}
    (hg : ∀ j < p.binSize i, g j = f i j) :
    overwrite (overwrite out 0 (p.start i) (p.layout f)) (i * p.spVoleSize) (p.binSize i) g =
      overwrite out 0 (p.start (i + 1)) (p.layout f) := by
  rw [p.start_of_lt hi, overwrite_append, ← p.start_succ hi]
  refine overwrite_congr fun q hq => ?_
  rw [p.start_succ hi] at hq
  split
  · rfl
  · next hge =>
    obtain ⟨j, rfl⟩ := Nat.exists_eq_add_of_le (Nat.not_lt.mp hge)
    rw [Nat.add_sub_cancel_left, layout, p.bin_add hi (by omega), p.off_add hi (by omega),
      hg j (by omega)]

/-! ### The slices of the transfers -/

/-- The number of transfers for bin `i`. -/
def binLength (i : ℕ) : ℕ := ceilLog2 (p.binSize i)

theorem binLength_spec (i : ℕ) :
    ∃ l, p.binLength i = l + 1 ∧ 2 ^ l < p.binSize i ∧ p.binSize i ≤ 2 ^ (l + 1) :=
  ceilLog2_spec (p.one_lt_binSize i)

theorem slice_le (hi : i < p.noiseNum) :
    i * ceilLog2 p.spVoleSize + p.binLength i ≤ p.requireOtNum := by
  rw [requireOtNum, binLength, binSize, Nat.mul_comm i]
  split
  · next h => rw [h]
  · have hmul := Nat.mul_le_mul_left (ceilLog2 p.spVoleSize) (show i + 1 ≤ p.noiseNum - 1 by omega)
    rw [Nat.mul_succ] at hmul
    omega

theorem log2Ceil_spVoleSize : log2Ceil p.spVoleSize = .ok (ceilLog2 p.spVoleSize) :=
  log2Ceil_eq (by have := p.one_lt_spVoleSize; omega)

theorem log2Ceil_lastSpVoleSize : log2Ceil p.lastSpVoleSize = .ok (ceilLog2 p.lastSpVoleSize) :=
  log2Ceil_eq (by have := p.one_lt_spVoleSize; have := p.spVoleSize_le_last; omega)

theorem log2Ceil_binSize (i : ℕ) : log2Ceil (p.binSize i) = .ok (p.binLength i) :=
  log2Ceil_eq (by have := p.one_lt_binSize i; omega)

/-! ### The choices of the indexes -/

/-- The bits of the indexes of the first bins, in the places of their transfers. -/
def ChoicesUpTo (i k : ℕ) (s : DynamicBitset × ℕ) : Prop :=
  s.1.size = p.requireOtNum ∧ s.2 = i * ceilLog2 p.spVoleSize + k ∧
    ∀ i' < p.noiseNum, ∀ k' < p.binLength i', i' < i ∨ i' = i ∧ k' < k →
      s.1.bit (i' * ceilLog2 p.spVoleSize + k') = (p.index i').testBit k'

theorem binLength_of_ne (hi : i ≠ p.noiseNum - 1) : p.binLength i = ceilLog2 p.spVoleSize := by
  rw [binLength, binSize, if_neg hi]

theorem vecGet_indexes (hlen : p.indexes.length = p.noiseNum) (hi : i < p.noiseNum) :
    vecGet p.indexes i = .ok (p.index i) :=
  vecGet_getD (by omega) 0

theorem genChoicesBit_eq (hlen : p.indexes.length = p.noiseNum) {k : ℕ} (hi : i < p.noiseNum)
    (hk : k < p.binLength i) {s : DynamicBitset × ℕ} (hs : p.ChoicesUpTo i k s) :
    ∃ s', p.genChoicesBit i k s = .ok s' ∧ p.ChoicesUpTo i (k + 1) s' := by
  obtain ⟨hsize, hpos, hbit⟩ := hs
  have hlt : s.2 < s.1.size := by
    have := p.slice_le hi
    omega
  refine ⟨(s.1.set s.2 ((p.index i).testBit k) hlt, s.2 + 1), ?_, hsize, congrArg Nat.succ hpos, ?_⟩
  · rw [genChoicesBit, p.vecGet_indexes hlen hi, ok_bind, dif_pos hlt]
    rfl
  · intro i' hi' k' hk' hcase
    rw [DynamicBitset.bit_set, hpos]
    rcases Nat.lt_or_ge i' i with hii | hii
    · -- The bins before are short ones, so their bits end before this one.
      have hmul := Nat.mul_le_mul_right (ceilLog2 p.spVoleSize) hii
      rw [Nat.succ_mul, ← p.binLength_of_ne (i := i') (by omega)] at hmul
      rw [if_neg (by rw [← p.binLength_of_ne (i := i') (by omega)]; omega)]
      exact hbit i' hi' k' hk' (.inl hii)
    · obtain rfl : i' = i := by omega
      by_cases hkk : k' = k
      · rw [hkk, if_pos rfl]
      · rw [if_neg (by omega)]
        exact hbit i' hi' k' hk' (.inr ⟨rfl, by omega⟩)

theorem log2_bound (hbin : p.lastSpVoleSize ≤ 2 ^ 31) :
    (shl32 1 (p.binLength i)).toNat.log2 = p.binLength i := by
  have hlt : p.binLength i < 32 :=
    Nat.lt_succ_of_le (ceilLog2_le (p.one_lt_binSize i) ((p.binSize_le_last i).trans hbin))
  rw [toNat_shl32_one hlt, Nat.log2_two_pow]

/-- **`GenChoices`** writes the bits of the indexes, least significant bit first. -/
theorem genChoices_eq (hlen : p.indexes.length = p.noiseNum) (hbin : p.lastSpVoleSize ≤ 2 ^ 31) :
    ∃ c, p.genChoices = .ok c ∧ ∀ i < p.noiseNum, ∀ k < p.binLength i,
      c.bit (i * ceilLog2 p.spVoleSize + k) = (p.index i).testBit k := by
  obtain ⟨s, hs, hInv⟩ := forLoop_ok (f := p.genChoicesBin)
    (s := (.ofSize p.requireOtNum, 0))
    (fun i s => (i < p.noiseNum → p.ChoicesUpTo i 0 s) ∧ (i = p.noiseNum →
      ∀ i' < p.noiseNum, ∀ k' < p.binLength i',
        s.1.bit (i' * ceilLog2 p.spVoleSize + k') = (p.index i').testBit k'))
    ⟨fun _ => ⟨rfl, by simp, fun _ _ _ _ h => absurd h (by omega)⟩,
      fun h => absurd h p.noiseNum_pos.ne⟩
    fun i hi s hs => by
      obtain ⟨s', hs', hInv⟩ := forLoop_ok
        (p.ChoicesUpTo i) (hs.1 hi) fun k hk t ht => p.genChoicesBit_eq hlen hi hk ht
      have hbits : ∀ i' < i + 1, ∀ k' < p.binLength i',
          s'.1.bit (i' * ceilLog2 p.spVoleSize + k') = (p.index i').testBit k' := by
        intro i' hi' k' hk'
        refine hInv.2.2 i' (by omega) k' hk' ?_
        rcases Nat.lt_succ_iff_lt_or_eq.mp hi' with h' | rfl
        · exact .inl h'
        · exact .inr ⟨rfl, hk'⟩
      refine ⟨s', ?_, fun hlt => ⟨hInv.1, ?_, fun i' _ k' hk' h => hbits i' (by omega) k' hk'⟩,
        fun heq i' hi' => hbits i' (by omega)⟩
      · rw [genChoicesBin, p.log2Ceil_binSize, ok_bind]
        dsimp only
        rw [p.log2_bound hbin, hs']
      · rw [hInv.2.1, p.binLength_of_ne (by omega)]
        ring
  refine ⟨s.1, ?_, hInv.2 rfl⟩
  rw [genChoices, enforce_bind hlen, hs]
  rfl

/-! ### Explicit indexes -/

/-- The index of bin `i` that the choices spell. -/
def choiceIndex (c : DynamicBitset) (i : ℕ) : ℕ :=
  (bitsOf (p.binLength i) fun k => c.bit (i * ceilLog2 p.spVoleSize + k)).toNat

/-- `SetIndexes` stores the given indexes, each reduced by the size of its bin, and the choices
spell them. -/
def TakesIndexes (indexes : List ℕ) : Prop :=
  ∃ p', p.setIndexes indexes = .ok p' ∧
    (∀ i < p.noiseNum, p'.index i = indexes.getD i 0 % p.binSize i) ∧
    ∃ c, p'.genChoices = .ok c ∧ ∀ i < p.noiseNum, p.choiceIndex c i = p'.index i

variable {p}
variable {indexes : List ℕ}

theorem setIndex_loop (hlen : p.noiseNum ≤ p.indexes.length)
    (hgiven : p.noiseNum ≤ indexes.length) :
    ∃ l, forLoop (p.noiseNum - 1) (p.setIndex indexes) p.indexes = .ok l ∧
      l.length = p.indexes.length ∧
      (∀ j < p.noiseNum - 1, l.getD j 0 = indexes.getD j 0 % p.spVoleSize) ∧
      l.getD (p.noiseNum - 1) 0 = p.index (p.noiseNum - 1) := by
  have hstep : ∀ i < p.noiseNum - 1, ∀ l : List ℕ, (l.length = p.indexes.length ∧
      (∀ j < i, l.getD j 0 = indexes.getD j 0 % p.spVoleSize) ∧
        ∀ j, i ≤ j → l.getD j 0 = p.index j) →
      ∃ l', p.setIndex indexes i l = .ok l' ∧ l'.length = p.indexes.length ∧
        (∀ j < i + 1, l'.getD j 0 = indexes.getD j 0 % p.spVoleSize) ∧
        ∀ j, i + 1 ≤ j → l'.getD j 0 = p.index j := by
    rintro i hi l ⟨hlength, hdone, hrest⟩
    refine ⟨l.set i (indexes.getD i 0 % p.spVoleSize), ?_, by rw [List.length_set, hlength],
      fun j hj => ?_, fun j hj => ?_⟩
    · rw [setIndex, vecGet_getD (by omega) 0, ok_bind, vecSet_of_lt (by omega)]
    · by_cases hij : i = j
      · rw [hij, List.getD_eq_getElem?_getD, List.getElem?_set_self (by omega), Option.getD_some]
      · rw [List.getD_eq_getElem?_getD, List.getElem?_set_ne hij]
        exact hdone j (by omega)
    · rw [List.getD_eq_getElem?_getD, List.getElem?_set_ne (by omega)]
      exact hrest j (by omega)
  obtain ⟨l, hl, hlength, hdone, hrest⟩ := forLoop_ok _
    ⟨rfl, fun j hj => absurd hj (Nat.not_lt_zero j), fun j _ => rfl⟩ hstep
  exact ⟨l, hl, hlength, hdone, hrest _ le_rfl⟩

/-- **`SetIndexes`** stores the given indexes except the last one. -/
theorem setIndexes_eq (h32 : p.noiseNum ≤ 2 ^ 32) (hlen : p.noiseNum ≤ p.indexes.length)
    (hgiven : p.noiseNum ≤ indexes.length) :
    ∃ l, p.setIndexes indexes = .ok (p.withIndexes l) ∧ l.length = p.indexes.length ∧
      (∀ j < p.noiseNum - 1, l.getD j 0 = indexes.getD j 0 % p.binSize j) ∧
      l.getD (p.noiseNum - 1) 0 = p.index (p.noiseNum - 1) % p.lastSpVoleSize := by
  have hpos := p.noiseNum_pos
  obtain ⟨l, hl, hlength, hdone, hlast⟩ := setIndex_loop hlen hgiven
  refine ⟨l.set (p.noiseNum - 1) (p.index (p.noiseNum - 1) % p.lastSpVoleSize), ?_,
    by rw [List.length_set, hlength], fun j hj => ?_, ?_⟩
  · rw [setIndexes, enforce_bind hgiven, setIndexesLoop, if_pos (by omega), hl, ok_bind,
      vecGet_getD (by omega) 0, ok_bind, vecSet_of_lt (by omega), hlast]
    rfl
  · rw [List.getD_eq_getElem?_getD, List.getElem?_set_ne (by omega), ← List.getD_eq_getElem?_getD,
      hdone j hj, binSize, if_neg (by omega)]
  · rw [List.getD_eq_getElem?_getD, List.getElem?_set_self (by omega), Option.getD_some]

/-- `SetIndexes` returns only if the counter of its loop reaches the last index, which is there
already. -/
theorem of_setIndexes {p' : MpFssParam} (h : p.setIndexes indexes = .ok p') :
    p.noiseNum ≤ 2 ^ 32 ∧ p.noiseNum ≤ p.indexes.length := by
  obtain ⟨-, h⟩ := of_enforce_bind h
  obtain ⟨l, hl, h⟩ := of_bind_eq_ok h
  obtain ⟨last, hlast, -⟩ := of_bind_eq_ok h
  rw [setIndexesLoop] at hl
  split at hl
  · next h32 =>
    have hlength : l.length = p.indexes.length := by
      refine forLoop_of_ok hl (fun _ l => l.length = p.indexes.length) rfl ?_
      intro i _ l l' hlength hset
      obtain ⟨_, -, hset⟩ := of_bind_eq_ok hset
      rw [(of_vecSet hset).2, List.length_set, hlength]
    have hlt := (List.getElem?_eq_some_iff.mp (of_vecGet hlast)).1
    exact ⟨by omega, by omega⟩
  · nomatch hl

theorem choiceIndex_eq {c : DynamicBitset} (hindex : p.index i < p.binSize i)
    (hbit : ∀ k < p.binLength i, c.bit (i * ceilLog2 p.spVoleSize + k) = (p.index i).testBit k) :
    p.choiceIndex c i = p.index i := by
  have hbits : bitsOf (p.binLength i) (fun k => c.bit (i * ceilLog2 p.spVoleSize + k)) =
      BitVec.ofNat (p.binLength i) (p.index i) := by
    refine BitVec.eq_of_getLsbD_eq fun k hk => ?_
    rw [getLsbD_bitsOf_of_lt hk, hbit k hk, BitVec.getLsbD_ofNat, decide_eq_true hk, Bool.true_and]
  obtain ⟨l, hl, -, hle⟩ := p.binLength_spec i
  rw [choiceIndex, hbits, BitVec.toNat_ofNat, Nat.mod_eq_of_lt (by rw [hl]; omega)]

/-- Indexes with a single bit that is too high for the shift of `GenChoices` give no choice. -/
theorem bit_of_genChoices {c : DynamicBitset} (h : p.genChoices = .ok c)
    (hindex : ∀ i, ∀ k < 31, (p.index i).testBit k = false) (j : ℕ) : c.bit j = false := by
  obtain ⟨-, h⟩ := of_enforce_bind h
  obtain ⟨s, hs, h⟩ := of_bind_eq_ok h
  obtain rfl := Except.ok.inj h
  refine forLoop_of_ok hs (fun _ s => ∀ j, s.1.bit j = false)
    (fun j => DynamicBitset.bit_ofSize _ j) ?_ j
  intro i _ s s' hs hbin
  obtain ⟨length, -, hbin⟩ := of_bind_eq_ok hbin
  refine forLoop_of_ok hbin (fun _ s => ∀ j, s.1.bit j = false) hs ?_
  intro k hk s s' hs hbit
  obtain ⟨index, hget, hbit⟩ := of_bind_eq_ok hbit
  split at hbit
  · obtain rfl := Except.ok.inj hbit
    intro j
    have hlt : k < 31 := by
      have hbound := (shl32 1 length).isLt
      have hlog : (shl32 1 length).toNat.log2 < 32 := by
        rcases Nat.eq_zero_or_pos (shl32 1 length).toNat with hzero | hpos
        · rw [hzero]
          decide
        · exact (Nat.log2_lt hpos.ne').mpr hbound
      omega
    have hfalse : index.testBit k = false := by
      rw [← hindex i k hlt, MpFssParam.index, List.getD_eq_getElem?_getD, of_vecGet hget]
      rfl
    rw [DynamicBitset.bit_set, hfalse, hs j, ite_self]
  · nomatch hbit

theorem binSize_last : p.binSize (p.noiseNum - 1) = p.lastSpVoleSize := if_pos rfl

theorem takesIndexes_iff_of_le (hbin : p.lastSpVoleSize ≤ 2 ^ 31)
    (hgiven : p.noiseNum ≤ indexes.length) :
    p.TakesIndexes indexes ↔ p.noiseNum ≤ 2 ^ 32 ∧ p.indexes.length = p.noiseNum ∧
      p.index (p.noiseNum - 1) % p.lastSpVoleSize =
        indexes.getD (p.noiseNum - 1) 0 % p.lastSpVoleSize := by
  have hpos := p.noiseNum_pos
  constructor
  · rintro ⟨p', hset, hstored, c, hc, -⟩
    obtain ⟨h32, hlen⟩ := of_setIndexes hset
    obtain ⟨l, hl, hlength, -, hstays⟩ := setIndexes_eq h32 hlen hgiven
    obtain rfl : p' = p.withIndexes l := Except.ok.inj (hset.symm.trans hl)
    refine ⟨h32, hlength.symm.trans (of_enforce_bind hc).1, ?_⟩
    rw [← hstays, ← binSize_last]
    exact hstored _ (by omega)
  · rintro ⟨h32, hlen, hsame⟩
    obtain ⟨l, hl, hlength, hdone, hstays⟩ := setIndexes_eq h32 hlen.ge hgiven
    have hstored : ∀ i < p.noiseNum, (p.withIndexes l).index i =
        indexes.getD i 0 % p.binSize i := by
      intro i hi
      rcases Nat.lt_or_ge i (p.noiseNum - 1) with hlt | hge
      · exact hdone i hlt
      · obtain rfl : i = p.noiseNum - 1 := by omega
        rw [binSize_last, ← hsame]
        exact hstays
    obtain ⟨c, hc, hbit⟩ := (p.withIndexes l).genChoices_eq (hlength.trans hlen) hbin
    refine ⟨p.withIndexes l, hl, hstored, c, hc, fun i hi => ?_⟩
    refine choiceIndex_eq ?_ (hbit i hi)
    rw [hstored i hi]
    exact Nat.mod_lt _ (Nat.zero_lt_of_lt (p.one_lt_binSize i))

/-- The index `2 ^ 31` of a large last bin has the bit that `GenChoices` leaves out. -/
theorem not_takesIndexes_of_lt (hlarge : 2 ^ 31 < p.lastSpVoleSize)
    (hlength : indexes.length = p.noiseNum)
    (hget : ∀ i, indexes.getD i 0 = if i = p.noiseNum - 1 then 2 ^ 31 else 0) :
    ¬(p.withIndexes indexes).TakesIndexes indexes := by
  rintro ⟨p', hset, hstored, c, hc, hspell⟩
  have hpos := p.noiseNum_pos
  obtain ⟨h32, hlen⟩ := of_setIndexes hset
  obtain ⟨l, hl, hlen', -, -⟩ := setIndexes_eq h32 hlen hlength.ge
  obtain rfl := Except.ok.inj (hset.symm.trans hl)
  have hindex : ∀ i < p.noiseNum, l.getD i 0 = if i = p.noiseNum - 1 then 2 ^ 31 else 0 := by
    intro i hi
    have hmod : l.getD i 0 = indexes.getD i 0 % p.binSize i := hstored i hi
    rw [hmod, hget]
    split
    · next heq => rw [heq, binSize_last, Nat.mod_eq_of_lt hlarge]
    · exact Nat.zero_mod _
  have hbit : ∀ i, ∀ k < 31, (l.getD i 0).testBit k = false := by
    intro i k hk
    rcases Nat.lt_or_ge i p.noiseNum with hi | hi
    · rw [hindex i hi]
      split
      · exact Nat.testBit_two_pow_of_ne (by omega)
      · exact Nat.zero_testBit k
    · rw [List.getD_eq_getElem?_getD, List.getElem?_eq_none (hlen'.trans_le (hlength.trans_le hi))]
      exact Nat.zero_testBit k
  have hlt : p.noiseNum - 1 < p.noiseNum := by omega
  have hzero : l.getD (p.noiseNum - 1) 0 = 0 := by
    refine (hspell _ hlt).symm.trans ?_
    have hbits : ∀ n off, bitsOf n (fun k => c.bit (off + k)) = 0#n := fun n off => by
      refine BitVec.eq_of_getLsbD_eq fun k hk => ?_
      rw [getLsbD_bitsOf_of_lt hk, bit_of_genChoices hc hbit, BitVec.getLsbD_zero]
    rw [choiceIndex, hbits, BitVec.toNat_zero]
  rw [hindex _ hlt, if_pos rfl] at hzero
  exact absurd hzero (by decide)

/-- **Explicit indexes.** With bins that the shift of `GenChoices` can handle, `SetIndexes` takes
the indexes if and only if there are as many indexes already, and the last one of them is the given
one. With a larger bin the choices do not spell every index: `GenChoices` then shifts a `uint32_t`
by `32`, which is undefined in the source, and its loop ends at once with the shift of the machine
(`shl32`). -/
theorem takesIndexes_iff (p : MpFssParam) :
    (p.lastSpVoleSize ≤ 2 ^ 31 → ∀ indexes : List ℕ, p.noiseNum ≤ indexes.length →
      (p.TakesIndexes indexes ↔ p.noiseNum ≤ 2 ^ 32 ∧ p.indexes.length = p.noiseNum ∧
        p.index (p.noiseNum - 1) % p.lastSpVoleSize =
          indexes.getD (p.noiseNum - 1) 0 % p.lastSpVoleSize)) ∧
    (2 ^ 31 < p.lastSpVoleSize → ∃ indexes : List ℕ, indexes.length = p.noiseNum ∧
      (∀ x ∈ indexes, x < 2 ^ 32) ∧ ¬(p.withIndexes indexes).TakesIndexes indexes) := by
  have hpos := p.noiseNum_pos
  refine ⟨fun hbin indexes hgiven => takesIndexes_iff_of_le hbin hgiven, fun hlarge => ?_⟩
  have hlength : ((List.replicate p.noiseNum 0).set (p.noiseNum - 1) (2 ^ 31)).length =
      p.noiseNum := by rw [List.length_set, List.length_replicate]
  refine ⟨_, hlength, fun x hx => ?_, not_takesIndexes_of_lt hlarge hlength fun i => ?_⟩
  · rcases List.mem_or_eq_of_mem_set hx with hx | rfl
    · rw [List.eq_of_mem_replicate hx]
      decide
    · decide
  · rw [List.getD_eq_getElem?_getD, List.getElem?_set, List.length_replicate]
    by_cases hi : p.noiseNum - 1 = i
    · rw [if_pos hi, if_pos (by omega), if_pos hi.symm]
      rfl
    · rw [if_neg hi, if_neg (Ne.symm hi), List.getElem?_replicate]
      split <;> rfl

/-- Two bins of four entries. -/
def paramEight (indexes : List ℕ) : MpFssParam :=
  ⟨2, 8, .regularNoise, indexes, false, rfl, Nat.two_pos, by decide, by decide⟩

theorem takesIndexes_eight : (paramEight [0, 1]).TakesIndexes [5, 1] :=
  ((takesIndexes_iff _).1 (by decide) [5, 1] (by decide)).mpr ⟨by decide, rfl, rfl⟩

/-- New parameters have no indexes to write to, and the last index is the one that was there. -/
theorem not_takesIndexes_eight : ¬(paramEight []).TakesIndexes [1, 1] ∧
    ¬(paramEight [0, 0]).TakesIndexes [1, 1] := by
  constructor
  · exact fun h => nomatch ((takesIndexes_iff_of_le (by decide) (by decide)).mp h).2.1
  · exact fun h => nomatch ((takesIndexes_iff_of_le (by decide) (by decide)).mp h).2.2

end MpFssParam

/-! ### Abelian groups -/

/-- The operations of an abelian group. Its zero need not be the number `0`. -/
structure MpfssOp.IsGroup {α : Type} (op : MpfssOp α) : Prop where
  add_assoc : ∀ a b c, op.add (op.add a b) c = op.add a (op.add b c)
  add_comm : ∀ a b, op.add a b = op.add b a
  sub_add : ∀ a b, op.add (op.sub a b) b = a
  add_sub : ∀ a b, op.sub (op.add a b) b = a

namespace MpfssOp

theorem reduce_succ {α : Type} (op : MpfssOp α) (init : α) (size : ℕ) (f : ℕ → α) :
    op.reduce init (size + 1) f = op.add (op.reduce init size f) (f size) := by
  rw [reduce, List.range_succ, List.map_append, List.foldl_append]
  rfl

theorem reduce_congr {α : Type} (op : MpfssOp α) {init : α} {size : ℕ} {f g : ℕ → α}
    (h : ∀ j < size, f j = g j) : op.reduce init size f = op.reduce init size g := by
  rw [reduce, reduce, List.map_congr_left fun j hj => h j (List.mem_range.mp hj)]

namespace IsGroup

variable {α : Type} {op : MpfssOp α} (h : op.IsGroup)

include h

theorem add_right_comm (a b c : α) : op.add (op.add a b) c = op.add (op.add a c) b := by
  rw [h.add_assoc, h.add_comm b, ← h.add_assoc]

theorem add_right_cancel {a b c : α} (heq : op.add a c = op.add b c) : a = b := by
  rw [← h.add_sub a c, heq, h.add_sub]

theorem reduce_add (init a : α) (size : ℕ) (f : ℕ → α) :
    op.reduce (op.add init a) size f = op.add (op.reduce init size f) a := by
  induction size with
  | zero => rfl
  | succ size ih => rw [reduce_succ, reduce_succ, ih, h.add_right_comm]

theorem reduce_punctured {init : α} {size index : ℕ} {f g : ℕ → α}
    (hfg : ∀ j < size, j ≠ index → f j = g j) (hindex : index < size) :
    op.add (op.reduce init size f) (g index) = op.add (op.reduce init size g) (f index) := by
  induction size with
  | zero => omega
  | succ size ih =>
    rw [reduce_succ, reduce_succ]
    rcases Nat.lt_or_ge index size with hlt | hge
    · rw [h.add_right_comm, ih (fun j hj => hfg j (by omega)) hlt, h.add_right_comm,
        hfg size (by omega) (by omega)]
    · obtain rfl : index = size := by omega
      rw [h.add_right_comm, op.reduce_congr fun j hj => hfg j (by omega) (by omega)]

/-- **The correction.** The difference of the two sums turns the receiver's entry at the index into
the sender's entry minus the weight. -/
theorem add_correction {init w : α} {size index : ℕ} {f g : ℕ → α}
    (hfg : ∀ j < size, j ≠ index → f j = g j) (hindex : index < size) :
    op.add (op.add (g index) (op.sub (op.reduce (op.sub init w) size f) (op.reduce init size g)))
      w = f index := by
  refine h.add_right_cancel (c := op.reduce init size g) ?_
  rw [h.add_right_comm _ w, h.add_assoc (g index), h.sub_add, h.add_assoc, ← h.reduce_add,
    h.sub_add, h.add_comm, h.reduce_punctured hfg hindex, h.add_comm]

end IsGroup

end MpfssOp

/-! ### The memory of the versions -/

/-- What the proofs need of the memory of a version. -/
structure MpfssMem.Laws {n : ℕ} {σ : Type} (M : MpfssMem n σ) where
  /-- The entry of a hashed leaf. -/
  conv : Uint128 → BitVec (8 * n)
  /-- There is room for the tree of a size at a position. -/
  Fits : σ → (pos size : ℕ) → Prop
  /-- The programs with fixed indexes can allocate what they need. -/
  FixedOk : MpFssParam → Prop
  span_eq : ∀ {st pos size}, Fits st pos size →
    ∃ l, M.span st pos size = .ok l ∧ l.length = size
  put_eq : ∀ {st pos size} {leaves : List Uint128}, Fits st pos leaves.length →
    pos + size ≤ (M.output st).length →
    ∃ st', M.put st pos size leaves = .ok st' ∧
      M.output st' = overwrite (M.output st) pos size (fun j => conv (leaves.getD j 0)) ∧
      ∀ pos' size', Fits st pos' size' → Fits st' pos' size'
  alloc_eq : ∀ {p : MpFssParam} {out}, p.mpVoleSize ≤ out.length →
    ∃ st, M.alloc p out = .ok st ∧ M.output st = out ∧
      ∀ i < p.noiseNum, Fits st (i * p.spVoleSize) (p.binSize i)
  allocFixed_eq : ∀ {p : MpFssParam} {out}, FixedOk p → p.mpVoleSize ≤ out.length →
    ∃ st, M.allocFixed p out = .ok st ∧ M.output st = out ∧
      ∀ i < p.noiseNum, Fits st (i * p.spVoleSize) (M.treeSize (p.binSize i) (p.binLength i))
  treeSize_spec : ∀ {p : MpFssParam} {i l}, FixedOk p → p.binLength i = l + 1 →
    p.binSize i ≤ M.treeSize (p.binSize i) (l + 1) ∧ M.treeSize (p.binSize i) (l + 1) ≤ 2 ^ (l + 1)

/-- Entries of `128` bits have room in the output. -/
def mpfssMem128Laws : mpfssMem128.Laws where
  conv := id
  Fits out pos size := pos + size ≤ out.length
  FixedOk _ := True
  span_eq h := subspan_eq h
  put_eq _ hout := ⟨_, writeSpan_eq hout _, rfl, fun _ _ h => by rwa [length_overwrite]⟩
  alloc_eq {p out} hout := ⟨out, rfl, rfl, fun _ hi => (p.add_binSize_le hi).trans hout⟩
  allocFixed_eq {p out} _ hout := ⟨out, rfl, rfl, fun _ hi => (p.add_binSize_le hi).trans hout⟩
  treeSize_spec {p i l} _ hl := by
    obtain ⟨l', hl', -, hle⟩ := p.binLength_spec i
    obtain rfl : l' = l := by omega
    exact ⟨le_rfl, hle⟩

theorem newBuffer_natCast (size : ℕ) : newBuffer (size * 16) = .ok (List.replicate size 0) := by
  rw [newBuffer, show ((size : ℤ) * 16).toNat / 16 = size by omega]
  rfl

theorem shl32_one_of_lt {k : ℕ} (hk : k < 31) :
    (shl32 1 k).toNat = 2 ^ k ∧ (shl32 1 k).toInt = (2 ^ k : ℕ) := by
  have hpow : 2 ^ k < 2 ^ 31 := Nat.pow_lt_pow_right (by omega) hk
  have hnat := toNat_shl32_one (show k < 32 by omega)
  refine ⟨hnat, ?_⟩
  rw [BitVec.toInt_eq_toNat_of_lt (by omega), hnat]

/-- A bin of at most `2 ^ 30` entries has a tree whose size is a positive `int`. -/
theorem MpFssParam.binLength_lt {p : MpFssParam} (h : p.lastSpVoleSize ≤ 2 ^ 30) (i : ℕ) :
    p.binLength i < 31 :=
  Nat.lt_succ_of_le (ceilLog2_le (p.one_lt_binSize i) ((p.binSize_le_last i).trans h))

theorem MpFssParam.binLength_le_last (p : MpFssParam) (i : ℕ) :
    p.binLength i ≤ ceilLog2 p.lastSpVoleSize :=
  ceilLog2_mono (p.one_lt_binSize i) (p.binSize_le_last i)

/-- Entries of `64` bits have room in the buffer. -/
def mpfssMem64Laws : mpfssMem64.Laws where
  conv := BitVec.setWidth (8 * 8)
  Fits st _ size := size ≤ st.2.length
  FixedOk p := p.lastSpVoleSize ≤ 2 ^ 30
  span_eq {st pos size} h := subspan_eq (show 0 + size ≤ st.2.length by omega)
  put_eq {st pos size leaves} h hout := by
    refine ⟨(overwrite st.1 pos size fun j => (leaves.getD j 0).setWidth (8 * 8),
      overwrite st.2 0 leaves.length fun j => leaves.getD j 0), ?_, rfl,
      fun _ _ h => by rwa [length_overwrite]⟩
    rw [mpfssMem64]
    dsimp only
    rw [writeSpan_eq (by omega), ok_bind, writeSpan_eq (show _ ≤ st.1.length from hout)]
    rfl
  alloc_eq {p out} _ := by
    refine ⟨(out, List.replicate p.lastSpVoleSize 0), ?_, rfl, fun i _ => ?_⟩
    · rw [mpfssMem64]
      dsimp only
      rw [max_eq_right (by exact_mod_cast p.spVoleSize_le_last), newBuffer_natCast]
      rfl
    · rw [List.length_replicate]
      exact p.binSize_le_last i
  allocFixed_eq {p out} h _ := by
    have hlt : ceilLog2 p.lastSpVoleSize < 31 := by
      have := p.binLength_lt h (p.noiseNum - 1)
      rwa [MpFssParam.binLength, MpFssParam.binSize, if_pos rfl] at this
    refine ⟨(out, List.replicate (2 ^ ceilLog2 p.lastSpVoleSize) 0), ?_, rfl, fun i _ => ?_⟩
    · rw [mpfssMem64]
      dsimp only
      rw [p.log2Ceil_spVoleSize, ok_bind, p.log2Ceil_lastSpVoleSize, ok_bind,
        max_eq_right (ceilLog2_mono p.one_lt_spVoleSize p.spVoleSize_le_last),
        (shl32_one_of_lt hlt).2, newBuffer_natCast]
      rfl
    · rw [List.length_replicate, mpfssMem64]
      dsimp only
      rw [(shl32_one_of_lt (p.binLength_lt h i)).1]
      exact Nat.pow_le_pow_right (by omega) (p.binLength_le_last i)
  treeSize_spec {p i l} h hl := by
    obtain ⟨l', hl', -, hle⟩ := p.binLength_spec i
    obtain rfl : l' = l := by omega
    rw [mpfssMem64]
    dsimp only
    rw [(shl32_one_of_lt (hl' ▸ p.binLength_lt h i)).1]
    exact ⟨hle, le_rfl⟩

end Yacl.Crypto
