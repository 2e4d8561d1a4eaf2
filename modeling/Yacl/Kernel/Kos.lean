import Yacl.Kernel.Columns
import Yacl.Kernel.OtStoreUtils
import Yacl.Math.GaloisField

/-!
# KOS OT extension

The model of `KosOtExtSend` and `KosOtExtRecv` of `yacl/kernel/algorithms/kos_ote.cc`: the columns
of IKNP, for `64` transfers more than asked for, and a check of the receiver's message by random
linear combinations of the columns in `GF(2^64)`. The choices of the additional transfers are
random bits of the receiver, `gen`, and the seed of the combinations is one of the sender.

Honest parties complete in every interleaving, so the check accepts, and their outputs are the
same for all `gen` and all seeds: the transfers made for the check leave no trace in them
(`kosOtExt_completes`).
-/

open Bits Loop TwoParty Proc Yacl.Math

namespace Yacl.Crypto

variable (T : Tools) (pf : Platform)

/-! ### Messages of the check -/

/-- `CheckMsg`. -/
structure KosCheckMsg where
  x : BitVec 64
  t : ℕ → BitVec 64

/-- `CheckMsg::Pack`. -/
def KosCheckMsg.pack (msg : KosCheckMsg) : List Bytes.Byte :=
  Bytes.encode 8 (msg.x :: (List.range 128).map msg.t)

/-- `CheckMsg::Unpack`: a shorter buffer is read past its end. -/
def KosCheckMsg.unpack (buf : List Bytes.Byte) : Except Exception KosCheckMsg :=
  if 129 * 8 ≤ buf.length then
    pure ⟨Bytes.wordAt 8 buf 0, fun k => Bytes.wordAt 8 buf (k + 1)⟩
  else throw .undefinedBehaviour

/-- **Round trip** of the message. -/
theorem KosCheckMsg.unpack_pack (msg : KosCheckMsg) :
    ∃ msg', unpack msg.pack = .ok msg' ∧ msg'.x = msg.x ∧ ∀ k < 128, msg'.t k = msg.t k := by
  have hlen : 129 * 8 ≤ msg.pack.length := by
    rw [pack]
    simp
  refine ⟨_, if_pos hlen, ?_, fun k hk => ?_⟩
  · exact Bytes.wordAt_encode rfl
  · exact Bytes.wordAt_encode (by simp [hk])

/-! ### The two programs -/

/-- `ExtendChoice`: the choices, `kS` random bits, and zeros. -/
def extendChoice (gen : ℕ → Bool) (choices : DynamicBitset) (finalSize : ℕ) : DynamicBitset :=
  (iterLoop 64 (fun i choicesExt => choicesExt.pushBack (gen i)) choices).resize finalSize

/-- `VecXorMonochrome`. -/
def vecXorMonochrome (v : List Uint128) (block : Uint128) : List Uint128 := v.map (· ^^^ block)

/-- The loop of `KosOtExtSend` over the columns: a column takes up the message if the base choice
is set. -/
def kosUnmask (base : OtRecvStore) (offset : ℕ) (buf : List Bytes.Byte)
    (otExt : ℕ → ℕ → Uint128) : Except Exception (ℕ → ℕ → Uint128) :=
  forLoop 128 (fun k otExt => do
    if ← base.getChoice k then
      let msg ← bufBlock buf k
      pure (Function.update otExt k
        (Function.update (otExt k) offset (otExt k offset ^^^ msg)))
    else pure otExt) otExt

/-- The body of the loop of `KosOtExtSend` over the batches. -/
def kosSendStep (base : OtRecvStore) (i : ℕ) (otExt : ℕ → ℕ → Uint128) :
    Party (ℕ → ℕ → Uint128) := do
  let offset := i * 128 / 128
  let buf ← recv
  kosUnmask base offset buf otExt

/-- The body of the loop of `KosOtExtRecv` over the batches. -/
def kosRecvStep (t0 t1 : ℕ → ℕ → Uint128) (choiceExt : DynamicBitset) (i : ℕ) (_ : Unit) :
    Party Unit := do
  let offset := i * 128 / 128
  let choiceSlice ← choiceExt.data offset
  sendAsync (blockBytes 128 fun k => t0 k offset ^^^ t1 k offset ^^^ choiceSlice)

/-- The combinations of the columns, `q_check` of the sender and `check_msgs.t` of the
receiver. -/
def kosCombine (randSamples : List (BitVec 64)) (cols : ℕ → ℕ → Uint128) (batchNum : ℕ) :
    Except Exception (ℕ → BitVec 64) :=
  forLoop 128 (fun k check => do
    let c ← gf64MulSpan randSamples (words64 (cols k) (2 * batchNum))
    pure (Function.update check k c)) fun _ => 0

/-- The loop of the sender that compares its combinations with the receiver's. -/
def kosVerify (base : OtRecvStore) (checkMsgs : KosCheckMsg) (qCheck : ℕ → BitVec 64) :
    Except Exception Unit :=
  forLoop 128 (fun k _ => do
    let result : Uint128 ←
      if ← base.getChoice k then pure ((checkMsgs.t k ^^^ checkMsgs.x).setWidth 128)
      else pure ((checkMsgs.t k).setWidth 128)
    enforce (result = (qCheck k).setWidth 128) "result == q_check[k]" "") ()

/-- The loop of both parties that turns the columns into the first `num` rows. -/
def kosRows (cols : ℕ → ℕ → Uint128) (batchNum num : ℕ) : Except Exception (List Uint128) :=
  forLoop batchNum (fun i ext =>
    let offset := i * 128 / 128
    let batch := matrixTranspose128 pf fun k => cols k offset
    let limit := min 128 (num - i * 128)
    writeSpan ext (i * 128) limit batch) (List.replicate num 0)

/-- The sender after the check. -/
def kosSendFinish (base : OtRecvStore) (otExt : ℕ → ℕ → Uint128) (batchNum otNumValid : ℕ)
    (sendBlocks : List (Uint128 × Uint128)) (cot : Bool) :
    Except Exception (List (Uint128 × Uint128)) := do
  let qExt ← kosRows pf otExt batchNum (otNumValid + 64)
  let delta ← base.copyBitBuf >>= fun out => out.data 0
  let batch0 := vecResize qExt otNumValid 0
  let batch1 := vecXorMonochrome batch0 delta
  let batch0 := if cot then batch0 else paraCrHashInplace128 T batch0
  let batch1 := if cot then batch1 else paraCrHashInplace128 T batch1
  writeSpan sendBlocks 0 otNumValid fun i => (batch0.getD i 0, batch1.getD i 0)

/-- The receiver after the check. -/
def kosRecvFinish (t0 : ℕ → ℕ → Uint128) (batchNum otNumValid : ℕ) (recvBlocks : List Uint128)
    (cot : Bool) : Except Exception (List Uint128) := do
  let tExt ← kosRows pf t0 batchNum (otNumValid + 64)
  let tExt := vecResize tExt otNumValid 0
  let tExt := if cot then tExt else paraCrHashInplace128 T tExt
  writeSpan recvBlocks 0 otNumValid fun i => tExt.getD i 0

/-- `KosOtExtSend`, with the seed that it draws; the result is `send_blocks` after the call. -/
def kosOtExtSend (seed : Uint128) (base : OtRecvStore) (sendBlocks : List (Uint128 × Uint128))
    (cot : Bool) : Party (List (Uint128 × Uint128)) := do
  enforce (worldSize = 2) "ctx->WorldSize() == 2" ""
  enforce (base.size = 128) "base_ot.Size() == kKappa" ""
  enforce (sendBlocks.isEmpty = false) "!send_blocks.empty()" ""
  let otNumValid := sendBlocks.length
  let otNumExt := otNumValid + 64
  let batchNum := (otNumExt + 128 - 1) / 128
  let blockNum := batchNum * 128 / 128
  let otExt ← expandRecv T base base.size blockNum
  let otExt ← forLoop batchNum (kosSendStep base) otExt
  let seed ← syncSeedSend T seed
  let randSamples := (List.range (batchNum * 2)).map (T.prgAesCtr 64 seed (batchNum * 2))
  let qCheck ← kosCombine randSamples otExt batchNum
  let buf ← recv
  let checkMsgs ← KosCheckMsg.unpack buf
  kosVerify base checkMsgs qCheck
  kosSendFinish T pf base otExt batchNum otNumValid sendBlocks cot

/-- `KosOtExtRecv`, with the random bits that it draws; the result is `recv_blocks` after the
call. -/
def kosOtExtRecv (gen : ℕ → Bool) (base : OtSendStore) (choices : DynamicBitset)
    (recvBlocks : List Uint128) (cot : Bool) : Party (List Uint128) := do
  enforce (worldSize = 2) "ctx->WorldSize() == 2" ""
  enforce (base.size = 128) "base_ot.Size() == kKappa" ""
  enforce (recvBlocks.length = choices.size) "recv_blocks.size() == choices.size()" ""
  enforce (recvBlocks.isEmpty = false) "!recv_blocks.empty()" ""
  let otNumValid := recvBlocks.length
  let otNumExt := otNumValid + 64
  let batchNum := (otNumExt + 128 - 1) / 128
  let blockNum := batchNum * 128 / 128
  let choiceExt := extendChoice gen choices (batchNum * 128)
  let otExt ← expandSend T base base.size blockNum
  forLoop batchNum (kosRecvStep otExt.1 otExt.2 choiceExt) ()
  let seed ← syncSeedRecv T
  let randSamples := (List.range (batchNum * 2)).map (T.prgAesCtr 64 seed (batchNum * 2))
  let choiceSpan ← choiceExt.dataSpan batchNum
  let x ← gf64MulSpan randSamples (words64 choiceSpan (batchNum * 2))
  let t ← kosCombine randSamples otExt.1 batchNum
  sendAsync (KosCheckMsg.pack ⟨x, t⟩)
  kosRecvFinish T pf otExt.1 batchNum otNumValid recvBlocks cot

/-! ### The check -/

variable {i : ℕ}

theorem extendChoice_bit (gen : ℕ → Bool) {choices : DynamicBitset} {finalSize : ℕ}
    (hi : i < choices.size) (hfinal : i < finalSize) :
    (extendChoice gen choices finalSize).bit i = choices.bit i := by
  have h := iterLoop_inv (n := 64) (f := fun i (ext : DynamicBitset) => ext.pushBack (gen i))
    (fun _ ext => choices.size ≤ ext.size ∧ ext.bit i = choices.bit i) ⟨le_rfl, rfl⟩
    fun j _ ext ⟨hsize, hbit⟩ => ⟨by rw [DynamicBitset.size_pushBack]; omega, by
      rw [DynamicBitset.bit_pushBack, if_neg (by omega), hbit]⟩
  rw [extendChoice, DynamicBitset.bit_resize, decide_eq_true hfinal, Bool.true_and, h.2]

theorem kosCombine_eq (x : ℕ → BitVec 64) (cols : ℕ → ℕ → Uint128) (batchNum : ℕ) :
    ∃ check, kosCombine ((List.range (batchNum * 2)).map x) cols batchNum = .ok check ∧
      ∀ k < 128, check k = gf64Dot (batchNum * 2) x (word64 (cols k)) := by
  refine ⟨_, forLoop_update (fun k _ => gf64Dot (batchNum * 2) x (word64 (cols k)))
    (fun k _ check => ?_) _, fun k hk => if_pos hk⟩
  rw [Nat.mul_comm 2, words64, gf64MulSpan_eq]
  rfl

variable {base : OtRecvStore}

/-- **The check accepts** columns that differ from the receiver's by its choices, wherever the
base choice is set. -/
theorem kosVerify_eq (hsize : base.size = 128) {msg : KosCheckMsg} {qCheck : ℕ → BitVec 64}
    (h : ∀ k < 128, qCheck k = msg.t k ^^^ if base.choice k then msg.x else 0) :
    kosVerify base msg qCheck = .ok () := by
  refine forLoop_eq_ok (fun _ => ()) fun k hk => ?_
  rw [OtRecvStore.getChoice_eq (by omega), h k hk]
  cases base.choice k <;> simp

variable {n : ℕ} {r : ℕ → Uint128}

theorem gf64Dot_column {q t : ℕ → Uint128} {c : Bool}
    (h : ∀ j < n, q j = t j ^^^ if c then r j else 0) (x : ℕ → BitVec 64) :
    gf64Dot (n * 2) x (word64 q) =
      gf64Dot (n * 2) x (word64 t) ^^^ if c then gf64Dot (n * 2) x (word64 r) else 0 := by
  cases c with
  | false => simpa using gf64Dot_congr fun i hi => word64_congr (fun j hj => by simp [h j hj]) hi
  | true =>
    rw [if_pos rfl, ← gf64Dot_xor]
    refine gf64Dot_congr fun i hi => ?_
    rw [← word64_xor]
    exact word64_congr (fun j hj => by simp [h j hj]) hi

/-! ### The rows -/

/-- Row `i` of the matrix of the columns. -/
def kosRow (cols : ℕ → ℕ → Uint128) (i : ℕ) : Uint128 :=
  matrixTranspose128 pf (fun k => cols k (i / 128)) (i % 128)

/-- **The transposing loop** computes the first rows. -/
theorem kosRows_eq (cols : ℕ → ℕ → Uint128) (num : ℕ) :
    kosRows pf cols ((num + 128 - 1) / 128) num = .ok ((List.range num).map (kosRow pf cols)) := by
  suffices h : ∃ ext, kosRows pf cols ((num + 128 - 1) / 128) num = .ok ext ∧ ext.length = num ∧
      ∀ j < num, j < 128 * ((num + 128 - 1) / 128) → ext[j]? = some (kosRow pf cols j) by
    obtain ⟨ext, hext, hlen, hrows⟩ := h
    refine hext.trans (congrArg Except.ok (List.ext_getElem? fun j => ?_))
    by_cases hj : j < num
    · rw [hrows j hj (by omega), List.getElem?_map, List.getElem?_range hj, Option.map_some]
    · rw [List.getElem?_eq_none (by omega), List.getElem?_eq_none (by simpa using hj)]
  refine forLoop_ok (fun i ext => ext.length = num ∧
      ∀ j < num, j < 128 * i → ext[j]? = some (kosRow pf cols j))
    ⟨List.length_replicate, by omega⟩ fun i hi ext ⟨hlen, hrows⟩ =>
      ⟨_, writeSpan_eq (by omega) _, by rw [length_overwrite, hlen], fun j hj hji => ?_⟩
  by_cases hold : j < 128 * i
  · rw [getElem?_overwrite_of_notMem (by omega), hrows j hj hold]
  · rw [getElem?_overwrite_of_mem (by omega) (by omega), kosRow,
      Nat.mul_div_cancel _ (by omega), show j - i * 128 = j % 128 by omega,
      show j / 128 = i by omega]

/-- What both parties do with their rows: nothing in COT mode. -/
def kosHash (cot : Bool) (x : Uint128) : Uint128 := if cot then x else crHash128 T x

theorem kosHash_map (cot : Bool) (l : List Uint128) :
    (if cot then l else paraCrHashInplace128 T l) = l.map (kosHash T cot) := by
  cases cot with
  | false => exact paraCrHashInplace128_eq T l
  | true => exact (List.map_id l).symm

variable {otExt : ℕ → ℕ → Uint128}

theorem kosSendFinish_eq (hsize : base.size = 128) {sendBlocks : List (Uint128 × Uint128)}
    (hlen : sendBlocks.length = n) (cot : Bool) :
    kosSendFinish T pf base otExt ((n + 64 + 128 - 1) / 128) n sendBlocks cot =
      .ok ((List.range n).map fun i => (kosHash T cot (kosRow pf otExt i),
        kosHash T cot (kosRow pf otExt i ^^^ base.choiceBlock))) := by
  rw [kosSendFinish, kosRows_eq, ok_bind, OtRecvStore.copyBitBuf_data hsize, ok_bind]
  dsimp only
  rw [vecResize_map_range (by omega), vecXorMonochrome, kosHash_map, kosHash_map,
    writeSpan_all hlen]
  refine congrArg Except.ok (List.map_congr_left fun i hi => ?_)
  rw [List.mem_range] at hi
  rw [List.map_map, List.map_map, List.map_map, getD_map_range hi, getD_map_range hi]
  rfl

variable {t0 : ℕ → ℕ → Uint128}

theorem kosRecvFinish_eq {recvBlocks : List Uint128} (hlen : recvBlocks.length = n) (cot : Bool) :
    kosRecvFinish T pf t0 ((n + 64 + 128 - 1) / 128) n recvBlocks cot =
      .ok ((List.range n).map fun i => kosHash T cot (kosRow pf t0 i)) := by
  rw [kosRecvFinish, kosRows_eq, ok_bind]
  dsimp only
  rw [vecResize_map_range (by omega), kosHash_map, writeSpan_all hlen]
  refine congrArg Except.ok (List.map_congr_left fun i hi => ?_)
  rw [List.mem_range] at hi
  rw [List.map_map, getD_map_range hi]
  rfl

/-! ### Correctness -/

/-- The columns of the sender before batch `i`: up to there they are the receiver's columns, plus
its choices `r` where the base choice is set. -/
def KosColumns (base : OtRecvStore) (ts t0 : ℕ → ℕ → Uint128) (r : ℕ → Uint128) (i : ℕ)
    (otExt : ℕ → ℕ → Uint128) : Prop :=
  ∀ k < 128, ∀ j, otExt k j =
    if j < i then t0 k j ^^^ (if base.choice k then r j else 0) else ts k j

variable {ts : ℕ → ℕ → Uint128}

/-- A row of the sender differs from the receiver's by the base choices, if the choice of the row
is set. -/
theorem KosColumns.row (h : KosColumns base ts t0 r n otExt) (hi : i / 128 < n) :
    kosRow pf otExt i =
      kosRow pf t0 i ^^^ if (r (i / 128)).getLsbD (i % 128) then base.choiceBlock else 0 :=
  matrixTranspose128_correlated pf (fun k hk => by rw [h k hk (i / 128), if_pos hi])
    (Nat.mod_lt i (by omega))

theorem kosUnmask_eq (hsize : base.size = 128) {buf : List Bytes.Byte} {msg : ℕ → Uint128}
    (hmsg : ∀ k < 128, bufBlock buf k = .ok (msg k)) (offset : ℕ) (otExt : ℕ → ℕ → Uint128) :
    ∃ otExt', kosUnmask base offset buf otExt = .ok otExt' ∧ ∀ k < 128, otExt' k =
      if base.choice k then Function.update (otExt k) offset (otExt k offset ^^^ msg k)
      else otExt k := by
  refine ⟨_, forLoop_update (fun k col => if base.choice k then
    Function.update col offset (col offset ^^^ msg k) else col) (fun k hk ext => ?_) otExt,
      fun k hk => if_pos hk⟩
  rw [OtRecvStore.getChoice_eq (by omega), hmsg k hk]
  cases base.choice k with
  | false => exact congrArg Except.ok (Function.update_eq_self k ext).symm
  | true => rfl

/-- **One batch** of both parties. -/
theorem kosStep_session (hsize : base.size = 128) {t1 : ℕ → ℕ → Uint128}
    (hts : ∀ k < 128, ts k = if base.choice k then t1 k else t0 k) {choiceExt : DynamicBitset}
    (hr : choiceExt.data i = .ok (r i)) (h : KosColumns base ts t0 r i otExt) :
    Session False (kosSendStep base i otExt) (kosRecvStep t0 t1 choiceExt i ())
      fun otExt' _ => KosColumns base ts t0 r (i + 1) otExt' := by
  obtain ⟨otExt', hunmask, hcols⟩ := kosUnmask_eq hsize
    (fun k (hk : k < 128) => bufBlock_blockBytes hk fun k => t0 k i ^^^ t1 k i ^^^ r i) i otExt
  rw [kosSendStep, kosRecvStep, Nat.mul_div_cancel _ (by omega), hr]
  refine .recv_send ?_
  rw [hunmask]
  refine .ret fun k hk j => ?_
  have hcol := hts k hk
  have hself := h k hk i
  rw [hcols k hk]
  cases hc : base.choice k with
  | false =>
    rw [hc] at hcol
    simp only [Bool.false_eq_true, if_false]
    rw [h k hk j, hc]
    simp [hcol]
  | true =>
    simp only [if_true]
    rcases Nat.lt_trichotomy j i with hj | rfl | hj
    · rw [Function.update_of_ne hj.ne, h k hk j, hc, if_pos hj, if_pos rfl, if_pos (by omega)]
    · grind
    · rw [Function.update_of_ne hj.ne', h k hk j, if_neg (by omega), if_neg (by omega)]

/-- **The check of honest parties.** The sender accepts the combinations of the receiver. -/
theorem kosCheck_accepts (hsize : base.size = 128) (h : KosColumns base ts t0 r n otExt)
    (x : ℕ → BitVec 64) (msg : KosCheckMsg) (hx : msg.x = gf64Dot (n * 2) x (word64 r))
    (ht : ∀ k < 128, msg.t k = gf64Dot (n * 2) x (word64 (t0 k))) {qCheck : ℕ → BitVec 64}
    (hq : ∀ k < 128, qCheck k = gf64Dot (n * 2) x (word64 (otExt k))) :
    kosVerify base msg qCheck = .ok () := by
  refine kosVerify_eq hsize fun k hk => ?_
  rw [hq k hk, ht k hk, hx]
  exact gf64Dot_column (fun j hj => by rw [h k hk j, if_pos hj]) x

/-- The outputs of the sender. -/
def kosSendOut (cot : Bool) (delta : Uint128) (choices : DynamicBitset) (t0 : ℕ → ℕ → Uint128) :
    List (Uint128 × Uint128) :=
  (List.range choices.size).map fun i =>
    let q := kosRow pf t0 i ^^^ if choices.bit i then delta else 0
    (kosHash T cot q, kosHash T cot (q ^^^ delta))

/-- The outputs of the receiver. -/
def kosRecvOut (cot : Bool) (choices : DynamicBitset) (t0 : ℕ → ℕ → Uint128) : List Uint128 :=
  (List.range choices.size).map fun i => kosHash T cot (kosRow pf t0 i)

theorem kosOut_correct (cot : Bool) (delta : Uint128) (choices : DynamicBitset)
    (t0 : ℕ → ℕ → Uint128) :
    OtsCorrect cot delta choices choices.size choices.size (kosSendOut T pf cot delta choices t0)
      (kosRecvOut T pf cot choices t0) := by
  refine ⟨by simp [kosSendOut], by simp [kosRecvOut], fun i hi _ => ?_⟩
  rw [kosSendOut, kosRecvOut, List.getElem?_map, List.getElem?_map, List.getElem?_range hi]
  refine ⟨_, _, rfl, rfl, ?_⟩
  cases cot with
  | true => exact .cot rfl
  | false => exact .rot rfl (crHash128 T)

/-- **KOS OT extension.** For every number of transfers and all choices, over correct base
transfers both parties complete in every interleaving; in particular the check accepts. The
outputs are correct transfers, and the same for every seed and all random bits. -/
theorem kosOtExt_completes {r : OtRecvStore} {s : OtSendStore} (hbase : BaseOts r s)
    (hsize : r.size = 128) {choices : DynamicBitset} (hn : 1 ≤ choices.size)
    {sendBlocks : List (Uint128 × Uint128)} {recvBlocks : List Uint128}
    (hsend : sendBlocks.length = choices.size) (hrecv : recvBlocks.length = choices.size)
    (cot : Bool) :
    ∃ sendOut recvOut,
      OtsCorrect cot r.choiceBlock choices choices.size choices.size sendOut recvOut ∧
        ∀ seed gen, Completes (kosOtExtSend T pf seed r sendBlocks cot)
          (kosOtExtRecv T pf gen s choices recvBlocks cot)
            fun a b => a = sendOut ∧ b = recvOut := by
  set batchNum := (choices.size + 64 + 128 - 1) / 128 with hbatch
  obtain ⟨ts, t0, t1, hts, ht, hcols⟩ := hbase.expand T 128 (by omega) batchNum
  refine ⟨_, _, kosOut_correct T pf cot r.choiceBlock choices t0, fun seed gen => ?_⟩
  refine Session.completes ?_
  have hsizeExt : (extendChoice gen choices (batchNum * 128)).size = batchNum * 128 := rfl
  have hbitExt := fun i (hi : i < choices.size) =>
    extendChoice_bit gen hi (show i < batchNum * 128 by omega)
  obtain ⟨choiceSpan, hspan, hblocks⟩ :=
    DynamicBitset.dataSpan_eq (hsizeExt.trans (Nat.mul_comm ..)).ge
  set x := T.prgAesCtr 64 seed (batchNum * 2)
  obtain ⟨t, hcombine, htk⟩ := kosCombine_eq x t0 batchNum
  obtain ⟨msg, hunpack, hmx, hmt⟩ :=
    KosCheckMsg.unpack_pack ⟨gf64Dot (batchNum * 2) x (word64 choiceSpan), t⟩
  rw [kosOtExtSend, kosOtExtRecv, enforce_of_pos worldSize_eq,
    enforce_of_pos (isEmpty_eq_false (hsend ▸ hn)), hbase.size_eq, hsize, enforce_of_pos rfl,
    enforce_of_pos hrecv, enforce_of_pos (isEmpty_eq_false (hrecv ▸ hn)), hsend, hrecv]
  simp only [← hbatch]
  generalize extendChoice gen choices (batchNum * 128) = choiceExt at *
  rw [Nat.mul_div_cancel _ (by omega), hts, ht]
  simp only [liftM_ok, Proc.pure_bind]
  refine .bind (Session.forLoop (fun i otExt _ => KosColumns r ts t0
      (fun i => bitsOf 128 fun j => choiceExt.bit (128 * i + j)) i otExt)
    (fun k hk j => (if_neg (by omega)).symm) fun i hi otExt _ h =>
      kosStep_session hsize hcols (DynamicBitset.data_eq (by omega)) h) fun otExt _ hotExt => ?_
  refine .bind (syncSeed_session T seed) ?_
  rintro _ _ ⟨rfl, rfl⟩
  obtain ⟨qCheck, hq, hqk⟩ := kosCombine_eq x otExt batchNum
  rw [hq, hspan]
  simp only [liftM_ok, Proc.pure_bind]
  rw [words64, gf64MulSpan_eq, hcombine]
  refine .recv_send ?_
  have hcheck := kosCheck_accepts hsize hotExt x msg
    (hmx.trans (gf64Dot_congr fun i hi => word64_congr hblocks hi))
    (fun k hk => (hmt k hk).trans (htk k hk)) hqk
  rw [hunpack, liftM_ok, Proc.pure_bind, hcheck, liftM_ok, kosSendFinish_eq T pf hsize hsend,
    kosRecvFinish_eq T pf hrecv]
  refine .ret ⟨List.map_congr_left fun i hi => ?_, rfl⟩
  rw [List.mem_range] at hi
  have hrow := hotExt.row pf (show i / 128 < batchNum by omega)
  rw [getLsbD_bitsOf_of_lt (Nat.mod_lt _ (by omega)), Nat.div_add_mod, hbitExt i hi] at hrow
  rw [hrow]

/-- The extension of mock transfers to `100` random transfers, in two batches with the `64`
transfers of the check. -/
theorem kosOtExt_completes_mock :
    ∃ send recv, mockRots (List.replicate 128 (5, 7)) ((DynamicBitset.ofSize 127).pushBack true) =
        .ok (send, recv) ∧
      ∃ sendOut recvOut,
        OtsCorrect false recv.choiceBlock ((DynamicBitset.ofSize 99).pushBack true) 100 100 sendOut
          recvOut ∧
        ∀ seed gen, Completes
          (kosOtExtSend default ⟨true, true⟩ seed recv (List.replicate 100 (0, 0)) false)
          (kosOtExtRecv default ⟨true, true⟩ gen send ((DynamicBitset.ofSize 99).pushBack true)
            (List.replicate 100 0) false) fun a b => a = sendOut ∧ b = recvOut := by
  obtain ⟨send, recv, hmock, hbase, hsize, -, -⟩ := mockRots_baseOts
    (List.replicate 128 (5, 7)) ((DynamicBitset.ofSize 127).pushBack true) (by simp) (by simp)
    (by simp)
  refine ⟨send, recv, hmock, ?_⟩
  exact kosOtExt_completes default ⟨true, true⟩ hbase (by simpa using hsize) (by simp) (by simp)
    (by simp) false

end Yacl.Crypto
