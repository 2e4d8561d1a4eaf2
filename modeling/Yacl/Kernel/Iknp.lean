import Yacl.Kernel.Columns
import Yacl.Kernel.OtStoreUtils

/-!
# IKNP OT extension

The model of `IknpOtExtSend` and `IknpOtExtRecv` of `yacl/kernel/algorithms/iknp_ote.cc`. The
parties extend `128` base transfers, with exchanged roles, to any number of transfers, in batches
of `128` of which the last may be cut short.

Over correct base transfers the two parties complete in every interleaving, and the receiver
has, of every pair of the sender, the block of its choice; in COT mode the two blocks of every
pair differ by the base choices (`iknpOtExt_completes`).
-/

open Bits Loop TwoParty Proc

namespace Yacl.Crypto

variable (T : Tools) (pf : Platform)

/-! ### The sender -/

/-- The loop of `IknpOtExtSend` over the columns: a column of the message is masked by the
sender's own column, or replaced by it. -/
def iknpUnmask (base : OtRecvStore) (ts : ℕ → ℕ → Uint128) (batchOffset : ℕ) (batch0 : Matrix128) :
    Except Exception Matrix128 :=
  forLoop 128 (fun k batch0 => do
    if ← base.getChoice k then
      pure (Function.update batch0 k (batch0 k ^^^ ts k batchOffset))
    else
      pure (Function.update batch0 k (ts k batchOffset))) batch0

/-- One batch of `IknpOtExtSend`, after the message has arrived: the pairs of the batch. -/
def iknpSendBatch (base : OtRecvStore) (ts : ℕ → ℕ → Uint128) (cot : Bool) (i : ℕ)
    (buf : List Bytes.Byte) : Except Exception (Matrix128 × Matrix128) := do
  let batchOffset := i * 128 / 128
  let batch0 ← memcpyBlocks 128 buf
  let batch0 ← iknpUnmask base ts batchOffset batch0
  let batch0 := matrixTranspose128 pf batch0
  let tmpChoice ← base.copyBitBuf >>= fun out => out.data 0
  let batch1 := fun k => batch0 k ^^^ tmpChoice
  if cot then pure (batch0, batch1)
  else pure (crHashArray T 128 batch0, crHashArray T 128 batch1)

/-- The body of the loop of `IknpOtExtSend` over the batches. -/
def iknpSendStep (base : OtRecvStore) (ts : ℕ → ℕ → Uint128) (cot : Bool) (i : ℕ)
    (sendBlocks : List (Uint128 × Uint128)) : Party (List (Uint128 × Uint128)) := do
  let buf ← recv
  let batch ← iknpSendBatch T pf base ts cot i buf
  let limit := min 128 (sendBlocks.length - i * 128)
  writeSpan sendBlocks (i * 128) limit fun j => (batch.1 j, batch.2 j)

/-- `IknpOtExtSend`; the result is `send_blocks` after the call. -/
def iknpOtExtSend (base : OtRecvStore) (sendBlocks : List (Uint128 × Uint128)) (cot : Bool) :
    Party (List (Uint128 × Uint128)) := do
  enforce (worldSize = 2) "ctx->WorldSize() == 2" ""
  enforce (base.size = 128) "base_ot.Size() == kKappa" ""
  enforce (sendBlocks.isEmpty = false) "!send_blocks.empty()" ""
  enforce (base.isSliced = false) "!base_ot.IsSliced()" ""
  let batchNum := (sendBlocks.length + 128 - 1) / 128
  let blockNum := batchNum * 128 / 128
  let ts ← expandRecv T base 128 blockNum
  forLoop blockNum (iknpSendStep T pf base ts cot) sendBlocks

/-! ### The receiver -/

/-- The body of the loop of `IknpOtExtRecv` over the batches. -/
def iknpRecvStep (t0 t1 : ℕ → ℕ → Uint128) (choicesCopy : DynamicBitset) (cot : Bool) (i : ℕ)
    (recvBlocks : List Uint128) : Party (List Uint128) := do
  let batchOffset := i * 128 / 128
  let batchChoice ← choicesCopy.data i
  let batchData := fun k => t0 k batchOffset ^^^ t1 k batchOffset ^^^ batchChoice
  let batch := fun k => t0 k batchOffset
  sendAsync (blockBytes 128 batchData)
  let batch := matrixTranspose128 pf batch
  let limit := min 128 (recvBlocks.length - i * 128)
  let batch := if cot then batch else crHashArray T 128 batch
  writeSpan recvBlocks (i * 128) limit batch

/-- `IknpOtExtRecv`; the result is `recv_blocks` after the call. -/
def iknpOtExtRecv (base : OtSendStore) (choices : DynamicBitset) (recvBlocks : List Uint128)
    (cot : Bool) : Party (List Uint128) := do
  enforce (worldSize = 2) "ctx->WorldSize() == 2" ""
  enforce (base.size = 128) "base_ot.Size() == kKappa" ""
  enforce (recvBlocks.length = choices.size) "recv_blocks.size() == choices.size()" ""
  enforce (recvBlocks.isEmpty = false) "!recv_blocks.empty()" ""
  enforce (base.isSliced = false) "!base_ot.IsSliced()" ""
  let batchNum := (recvBlocks.length + 128 - 1) / 128
  let blockNum := batchNum * 128 / 128
  let t ← expandSend T base 128 blockNum
  let choicesCopy := choices.resize (batchNum * 128)
  forLoop batchNum (iknpRecvStep T pf t.1 t.2 choicesCopy cot) recvBlocks

/-! ### Correctness -/

variable {base : OtRecvStore} {ts : ℕ → ℕ → Uint128}

theorem iknpUnmask_eq (hsize : base.size = 128) {off : ℕ} {t0 t1 : Matrix128}
    (hts : ∀ k < 128, ts k off = if base.choice k then t1 k else t0 k) {r : Uint128}
    {msg : Matrix128} (hmsg : ∀ k < 128, msg k = t0 k ^^^ t1 k ^^^ r) :
    ∃ Q, iknpUnmask base ts off msg = .ok Q ∧
      ∀ k < 128, Q k = t0 k ^^^ if base.choice k then r else 0 := by
  refine ⟨_, forLoop_update (fun k x => if base.choice k then x ^^^ ts k off else ts k off)
    (fun k hk Q => ?_) msg, fun k hk => ?_⟩
  · rw [OtRecvStore.getChoice_eq (by omega)]
    cases base.choice k <;> rfl
  · rw [if_pos hk, hmsg k hk]
    exact column_correlated (hts k hk) r

/-- **One batch.** The pairs that the sender computes from the receiver's message match the
receiver's rows. -/
theorem iknpSendBatch_eq (hsize : base.size = 128) {i : ℕ} {t0 t1 : Matrix128}
    (hts : ∀ k < 128, ts k i = if base.choice k then t1 k else t0 k) (cot : Bool) (r : Uint128) :
    ∃ batch, iknpSendBatch T pf base ts cot i (blockBytes 128 fun k => t0 k ^^^ t1 k ^^^ r) =
        .ok batch ∧
      ∀ j < 128, OtCorrect cot base.choiceBlock (r.getLsbD j) (batch.1 j, batch.2 j)
        ((if cot then matrixTranspose128 pf t0
          else crHashArray T 128 (matrixTranspose128 pf t0)) j) := by
  obtain ⟨msg, hcopy, hmsg⟩ := memcpyBlocks_blockBytes 128 fun k => t0 k ^^^ t1 k ^^^ r
  obtain ⟨Q, hQ, hcols⟩ := iknpUnmask_eq hsize hts hmsg
  have hrows := fun j (hj : j < 128) => matrixTranspose128_correlated pf hcols hj
  rw [iknpSendBatch, hcopy, ok_bind, Nat.mul_div_cancel _ (by omega), hQ,
    OtRecvStore.copyBitBuf_data hsize]
  cases cot with
  | true => exact ⟨_, rfl, fun j hj => .cot (hrows j hj)⟩
  | false =>
    refine ⟨_, rfl, fun j hj => ?_⟩
    dsimp only
    rw [if_neg Bool.false_ne_true, crHashArray_eq T hj, crHashArray_eq T hj, crHashArray_eq T hj]
    exact .rot (hrows j hj) (crHash128 T)

/-- **One step of both parties** makes one more batch correct. -/
theorem iknpStep_session (hsize : base.size = 128) {t0 t1 : ℕ → ℕ → Uint128}
    (hts : ∀ k < 128, ts k = if base.choice k then t1 k else t0 k) {choices : DynamicBitset}
    {n i : ℕ} (hn : choices.size = n) (hi : i < (n + 128 - 1) / 128) (cot : Bool)
    {sendBlocks : List (Uint128 × Uint128)} {recvBlocks : List Uint128}
    (h : OtsCorrect cot base.choiceBlock choices n (128 * i) sendBlocks recvBlocks) :
    Session False (iknpSendStep T pf base ts cot i sendBlocks)
      (iknpRecvStep T pf t0 t1 (choices.resize ((n + 128 - 1) / 128 * 128)) cot i recvBlocks)
      (OtsCorrect cot base.choiceBlock choices n (128 * (i + 1))) := by
  obtain ⟨hsend, hrecv, hdone⟩ := h
  have hdata := DynamicBitset.data_eq (b := choices.resize ((n + 128 - 1) / 128 * 128)) (i := i)
    (by rw [DynamicBitset.size_resize]; omega)
  set r := bitsOf 128 fun j => (choices.resize ((n + 128 - 1) / 128 * 128)).bit (128 * i + j)
  have hcol : ∀ k < 128, ts k i = if base.choice k then t1 k i else t0 k i := by
    intro k hk
    rw [hts k hk]
    cases base.choice k <;> rfl
  obtain ⟨batch, hbatch, hcorrect⟩ := iknpSendBatch_eq T pf hsize hcol cot r
  rw [iknpRecvStep, hdata, Nat.mul_div_cancel _ (by omega)]
  refine .recv_send ?_
  rw [hbatch, liftM_ok, Proc.pure_bind]
  dsimp only
  rw [writeSpan_eq (by omega), writeSpan_eq (by omega)]
  refine .ret ⟨by rw [length_overwrite, hsend], by rw [length_overwrite, hrecv], ?_⟩
  intro j hj hji
  by_cases hold : j < 128 * i
  · rw [getElem?_overwrite_of_notMem (by omega), getElem?_overwrite_of_notMem (by omega)]
    exact hdone j hj hold
  · have hbit : choices.bit j = r.getLsbD (j - i * 128) := by
      rw [getLsbD_bitsOf_of_lt (by omega), show 128 * i + (j - i * 128) = j by omega,
        DynamicBitset.bit_resize, decide_eq_true (by omega), Bool.true_and]
    refine ⟨_, _, getElem?_overwrite_of_mem (by omega) (by omega),
      getElem?_overwrite_of_mem (by omega) (by omega), ?_⟩
    rw [hbit]
    exact hcorrect (j - i * 128) (by omega)

/-- **IKNP OT extension.** For every number of transfers and all choices, over correct base
transfers both parties complete in every interleaving, with correct transfers. -/
theorem iknpOtExt_completes {r : OtRecvStore} {s : OtSendStore} (hbase : BaseOts r s)
    (hsize : r.size = 128) (hr : r.isSliced = false) (hs : s.isSliced = false)
    {choices : DynamicBitset} (hn : 1 ≤ choices.size) {sendBlocks : List (Uint128 × Uint128)}
    {recvBlocks : List Uint128} (hsend : sendBlocks.length = choices.size)
    (hrecv : recvBlocks.length = choices.size) (cot : Bool) :
    Completes (iknpOtExtSend T pf r sendBlocks cot) (iknpOtExtRecv T pf s choices recvBlocks cot)
      (OtsCorrect cot r.choiceBlock choices choices.size choices.size) := by
  refine Session.completes ?_
  obtain ⟨ts, t0, t1, hts, ht, hcols⟩ :=
    hbase.expand T 128 (by omega) ((choices.size + 128 - 1) / 128 * 128 / 128)
  rw [iknpOtExtSend, iknpOtExtRecv, enforce_of_pos hsize,
    enforce_of_pos (isEmpty_eq_false (hsend ▸ hn)), enforce_of_pos hr,
    enforce_of_pos (hbase.size_eq.trans hsize), enforce_of_pos (isEmpty_eq_false (hrecv ▸ hn)),
    enforce_of_pos hs, hsend, hrecv]
  simp only [hts, ht]
  rw [Nat.mul_div_cancel _ (by omega)]
  refine (Session.forLoop (fun i => OtsCorrect cot r.choiceBlock choices choices.size (128 * i))
    ⟨hsend, hrecv, by omega⟩ fun i hi sb rb h =>
      iknpStep_session T pf hsize hcols rfl hi cot h).mono fun sb rb h => ?_
  exact ⟨h.1, h.2.1, fun j hj _ => h.2.2 j hj (by omega)⟩

/-- The extension of mock transfers to two batches, of which the second has two transfers. -/
theorem iknpOtExt_completes_mock :
    ∃ send recv, mockRots (List.replicate 128 (5, 7)) ((DynamicBitset.ofSize 127).pushBack true) =
        .ok (send, recv) ∧
      Completes
        (iknpOtExtSend default ⟨true, true⟩ recv (List.replicate 130 (0, 0)) true)
        (iknpOtExtRecv default ⟨true, true⟩ send ((DynamicBitset.ofSize 129).pushBack true)
          (List.replicate 130 0) true)
        (OtsCorrect true recv.choiceBlock ((DynamicBitset.ofSize 129).pushBack true) 130 130) := by
  obtain ⟨send, recv, hmock, hbase, hsize, hr, hs⟩ := mockRots_baseOts
    (List.replicate 128 (5, 7)) ((DynamicBitset.ofSize 127).pushBack true) (by simp) (by simp)
    (by simp)
  refine ⟨send, recv, hmock, ?_⟩
  exact iknpOtExt_completes default ⟨true, true⟩ hbase (by simpa using hsize) hr hs (by simp)
    (by simp) (by simp) true

end Yacl.Crypto
