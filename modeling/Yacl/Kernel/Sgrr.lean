import Yacl.Crypto.Tools
import Yacl.Kernel.OtStoreUtils
import Yacl.Lib.PuncturedTree
import Yacl.Math.Gadget

/-!
# SGRR (n-1)-out-of-n OT

The model of `yacl/kernel/algorithms/sgrr_ote.cc`. The sender grows a tree from its seed and sends,
masked by random transfers, the sums of the left and of the right children of every level. The
receiver learns one sum for each level and grows the punctured tree from them. In the malicious
mode the sender also sends hashes of its leaves, which the receiver checks, and both parties hash
their leaves once more.

The loops copy `std::min(2 * iter_num, n)` nodes of a level, where `2 * iter_num` is computed on
`uint32_t`. For more than `2 ^ 31` leaves the product is zero on the last level, which is then lost.
For all smaller numbers the receiver ends up with the sender's leaves, except for the one at the
index (`sgrrOtExtCorrect_iff`).
-/

open Bits Loop TwoParty Proc PuncturedTree XorSum Yacl.Math

namespace Yacl.Crypto

variable (T : Tools)

/-! ### Bit sets and numbers -/

/-- `MakeDynamicBitset`. -/
def makeDynamicBitset (input : Uint128) (bits : ℕ) : Except Exception DynamicBitset := do
  let out := ((DynamicBitset.ofSize 0).append input).resize bits
  enforce (out.blocks.length = 1) "out.num_blocks() == 1" ""
  pure out

/-- `GetPuncturedIndex`. -/
def getPuncturedIndex (choice : DynamicBitset) (level : ℕ) : Except Exception Uint128 :=
  (choice.resize (level + 1)).data 0

/-- `GetInsertedIndex`. -/
def getInsertedIndex (choice : DynamicBitset) (level : ℕ) : Except Exception Uint128 := do
  let insertedSet ← (choice.resize (level + 1)).flip level
  insertedSet.data 0

/-! ### Growing the trees -/

/-- `SplitAllSeeds`: two copies of the seeds, one encrypted with each of the keys `kPrfKey`. -/
def splitAllSeeds (splitNum : ℕ) (seeds : ℕ → Uint128) (j : ℕ) : Uint128 :=
  if j < splitNum then T.aesEncrypt 0 (seeds j) else T.aesEncrypt 1 (seeds (j - splitNum))

/-- The loop over the seeds of a level. Seeds with `skip j` are passed over; `acc` is what the
caller adds up of the left and the right children. -/
def sgrrSplit {α : Type} (iterNum num : ℕ) (skip : ℕ → Bool) (upd : α → Uint128 → Uint128 → α)
    (seeds : ℕ → Uint128) (acc : α) : (ℕ → Uint128) × α :=
  iterLoop num (fun j s =>
    if skip j then s
    else
      let left := s.1 j ^^^ seeds j
      let right := s.1 (j + iterNum) ^^^ seeds j
      (Function.update (Function.update s.1 j left) (j + iterNum) right, upd s.2 left right))
    (splitAllSeeds T iterNum seeds, acc)

/-- One level of either tree: the seeds are split, and the children copied to the output. -/
def sgrrLevel {α : Type} (n i : ℕ) (skip : ℕ → Bool) (upd : α → Uint128 → Uint128 → α) (acc : α)
    (output : List Uint128) : Except Exception (List Uint128 × α) := do
  let iterNum := 2 ^ i % 2 ^ 32
  let seeds ← readSpan output 0 iterNum 0
  let s := sgrrSplit T iterNum (min iterNum n) skip upd seeds acc
  let output ← writeSpan output 0 (min (2 * iterNum % 2 ^ 32) n) s.1
  pure (output, s.2)

/-- The body of the sender's loop over the levels, where `init i` are the values that the two
messages of level `i` start from. -/
def sgrrSendStep (n : ℕ) (init : ℕ → Except Exception (Uint128 × Uint128)) (i : ℕ)
    (s : List Uint128 × (ℕ → Uint128 × Uint128)) :
    Except Exception (List Uint128 × (ℕ → Uint128 × Uint128)) := do
  let msgs ← init i
  let (output, msgs) ← sgrrLevel T n i (fun _ => false)
    (fun msgs left right => (msgs.1 ^^^ left, msgs.2 ^^^ right)) msgs s.1
  pure (output, Function.update s.2 i msgs)

/-- The sender's loop over the levels, from the seed. -/
def sgrrSendTree (n otNum : ℕ) (init : ℕ → Except Exception (Uint128 × Uint128)) (seed : Uint128)
    (output : List Uint128) : Except Exception (List Uint128 × (ℕ → Uint128 × Uint128)) := do
  let output ← vecSet output 0 seed
  forLoop otNum (sgrrSendStep T n init) (output, fun _ => (0, 0))

/-- The part of the receiver's loop that splits the seeds, which there are from level one on. -/
def sgrrRecvLevel (n i : ℕ) (skip : ℕ → Bool) (c : Bool) (insertVal : Uint128)
    (output : List Uint128) : Except Exception (List Uint128 × Uint128) :=
  if i ≠ 0 then
    sgrrLevel T n i skip (fun insertVal left right => insertVal ^^^ if c then left else right)
      insertVal output
  else pure (output, insertVal)

/-- The body of the receiver's loop over the levels. `SgrrOtExtRecv_fixed_index` has a test before
the punctured entry is cleared, `SgrrOtExtRecv` has not. -/
def sgrrRecvStep (guarded : Bool) (base : OtRecvStore) (n : ℕ) (choice : DynamicBitset)
    (recvMsgs : ℕ → Uint128 × Uint128) (i : ℕ) (output : List Uint128) :
    Except Exception (List Uint128) := do
  let puncturedIdx ← getPuncturedIndex choice i
  let insertedIdx ← getInsertedIndex choice i
  let c ← choice.test i
  let block ← base.getBlock i
  let insertVal := (if c then (recvMsgs i).1 else (recvMsgs i).2) ^^^ block
  let (output, insertVal) ←
    sgrrRecvLevel T n i (fun j => j = puncturedIdx.toNat ∨ j = insertedIdx.toNat) c insertVal output
  let output ← vecSetIf (guarded = false ∨ puncturedIdx.toNat < n) output puncturedIdx.toNat 0
  vecSetIf (insertedIdx.toNat < n) output insertedIdx.toNat insertVal

/-- The receiver's loop over the levels. -/
def sgrrRecvTree (guarded : Bool) (base : OtRecvStore) (n otNum : ℕ) (choice : DynamicBitset)
    (recvMsgs : ℕ → Uint128 × Uint128) (output : List Uint128) : Except Exception (List Uint128) :=
  forLoop otNum (sgrrRecvStep T guarded base n choice recvMsgs) output

/-! ### The check -/

/-- `CheckMsg`; the arrays of `32` bytes are words. -/
structure SgrrCheckMsg where
  t : BitVec (8 * 32)
  s : BitVec (8 * 32)

/-- `CheckMsg::Pack`. -/
def SgrrCheckMsg.pack (msg : SgrrCheckMsg) : List Bytes.Byte := Bytes.encode 32 [msg.t, msg.s]

/-- `CheckMsg::Unpack`. -/
def SgrrCheckMsg.unpack (buf : List Bytes.Byte) : Except Exception SgrrCheckMsg := do
  enforce (buf.length = 64) "in.size() == 64" ""
  pure ⟨Bytes.wordAt 32 buf 0, Bytes.wordAt 32 buf 1⟩

/-- The body of the loop of `GenCheckMsg` and `VerifyCheckMsg`: the hash of a leaf is stored, and
added to a sum. -/
def checkHash (output : List Uint128) (i : ℕ) (s : List (BitVec (8 * 32)) × BitVec (8 * 32)) :
    Except Exception (List (BitVec (8 * 32)) × BitVec (8 * 32)) := do
  let x ← vecGet output i
  let h := T.blake3 (Bytes.wordBytes 16 x)
  pure (s.1 ++ [h], s.2 ^^^ h)

/-- The hashes of the leaves, added to `t`. -/
def checkHashes (n : ℕ) (output : List Uint128) (t : BitVec (8 * 32)) :
    Except Exception (List (BitVec (8 * 32)) × BitVec (8 * 32)) :=
  forLoop n (checkHash T output) ([], t)

/-- `GenCheckMsg`. -/
def genCheckMsg (n : ℕ) (output : List Uint128) : Except Exception SgrrCheckMsg := do
  let (tmp, t) ← checkHashes T n output 0
  pure ⟨t, T.blake3 (Bytes.encode 32 tmp)⟩

/-- `VerifyCheckMsg`. -/
def verifyCheckMsg (n index : ℕ) (output : List Uint128) (proof : SgrrCheckMsg) :
    Except Exception Bool := do
  enforceThat (index < n) "index < n" index n
  let (tmp, t) ← checkHashes T n output proof.t
  let x ← vecGet tmp index
  let tmp ← vecSet tmp index (t ^^^ x)
  pure (T.blake3 (Bytes.encode 32 tmp) = proof.s)

/-- `ParaCrHashInplace_128(output.subspan(0, n))`. -/
def sgrrRefresh (n : ℕ) (output : List Uint128) : Except Exception (List Uint128) := do
  let seeds ← readSpan output 0 n 0
  writeSpan output 0 n (crHashArray T n seeds)

/-- The receiver's part of the check, and the refreshed output. -/
def sgrrRecvCheck (n index : ℕ) (output : List Uint128) (proof : SgrrCheckMsg) :
    Except Exception (List Uint128) := do
  let ok ← verifyCheckMsg T n index output proof
  enforce (ok = true) "VerifyCheckMsg(n, index, output, proof)"
    "Malicious SgrrOtExt Consistency check: fail!"
  let output ← sgrrRefresh T n output
  vecSet output index 0

/-! ### The two programs -/

/-- An array of pairs as an array of blocks. -/
def pairBlocks (msgs : ℕ → Uint128 × Uint128) (j : ℕ) : Uint128 :=
  if j % 2 = 0 then (msgs (j / 2)).1 else (msgs (j / 2)).2

/-- A buffer that is read as a span of pairs. -/
def bufPairs (buf : List Bytes.Byte) (i : ℕ) : Uint128 × Uint128 :=
  (Bytes.wordAt 16 buf (2 * i), Bytes.wordAt 16 buf (2 * i + 1))

/-- The loop of `SgrrOtExtSend` that masks the messages. -/
def sgrrMask (base : OtSendStore) (otNum : ℕ) (maskedChoice : ℕ → Bool)
    (msgs : ℕ → Uint128 × Uint128) : Except Exception (ℕ → Uint128 × Uint128) :=
  forLoop otNum (fun i msgs => do
    let b0 ← base.getBlock i (maskedChoice i).toNat
    let b1 ← base.getBlock i (1 - (maskedChoice i).toNat)
    pure (Function.update msgs i ((msgs i).1 ^^^ b0, (msgs i).2 ^^^ b1))) msgs

/-- The end of `SgrrOtExtRecv`, when the tree is grown. -/
def sgrrOtExtRecvRest (n index : ℕ) (output : List Uint128) (mal : Bool) : Party (List Uint128) :=
  if mal then do
    let recvBuf ← recv
    enforce (recvBuf.length = 64) "recv_buf.size() == 64" ""
    let proof ← SgrrCheckMsg.unpack recvBuf
    sgrrRecvCheck T n index output proof
  else pure output

/-- `SgrrOtExtRecv`; the result is `output` after the call. -/
def sgrrOtExtRecv (base : OtRecvStore) (n index : ℕ) (output : List Uint128) (mal : Bool) :
    Party (List Uint128) := do
  let otNum ← log2Ceil n
  enforceThat (n > 1) "n > (uint32_t)1" n 1
  enforceThat (128 ≥ base.size) "(uint32_t)128 >= base_ot.Size()" 128 base.size
  enforceThat (base.size ≥ otNum) "base_ot.Size() >= ot_num" base.size otNum
  enforceThat (index < n) "index < n" index n
  let choice ← makeDynamicBitset (BitVec.ofNat 128 index) otNum
  let maskedChoice ← maskChoice base otNum choice.complement
  sendAsync (bitsetBytes maskedChoice)
  let recvBuf ← recv
  enforce (recvBuf.length ≥ otNum * 2 * 16)
    "recv_buf.size() >= static_cast<int64_t>(ot_num * 2 * sizeof(uint128_t))" ""
  let output ← sgrrRecvTree T false base n otNum choice (bufPairs recvBuf) output
  sgrrOtExtRecvRest T n index output mal

/-- The end of `SgrrOtExtSend`, when the messages are sent. -/
def sgrrOtExtSendRest (n : ℕ) (output : List Uint128) (mal : Bool) : Party (List Uint128) :=
  if mal then do
    let proof ← genCheckMsg T n output
    sendAsync proof.pack
    sgrrRefresh T n output
  else pure output

/-- `SgrrOtExtSend`, with the seed that it draws; the result is `output` after the call. -/
def sgrrOtExtSend (seed : Uint128) (base : OtSendStore) (n : ℕ) (output : List Uint128)
    (mal : Bool) : Party (List Uint128) := do
  let otNum ← log2Ceil n
  enforceThat (base.size ≥ otNum) "base_ot.Size() >= ot_num" base.size otNum
  enforceThat (n > 1) "n > (uint32_t)1" n 1
  let (output, sendMsgs) ← sgrrSendTree T n otNum (fun _ => pure (0, 0)) seed output
  let recvBuf ← recv
  let maskedChoice ← memcpyBits otNum recvBuf
  let sendMsgs ← sgrrMask base otNum maskedChoice sendMsgs
  sendAsync (blockBytes (otNum * 2) (pairBlocks sendMsgs))
  sgrrOtExtSendRest T n output mal

/-- `SgrrOtExtHelper`. -/
def sgrrOtExtHelper (n : ℕ) (mal : Bool) : Except Exception ℕ := do
  let otNum ← log2Ceil n
  pure (otNum * 16 * 2 + if mal then 32 * 2 else 0)

/-- `SgrrOtExtRecv_fixed_index` with the buffer of the sender. -/
def sgrrOtExtRecvFixedIndexBuf (base : OtRecvStore) (n : ℕ) (output : List Uint128)
    (recvBuf : List Bytes.Byte) (mal : Bool) : Except Exception (List Uint128) := do
  let otNum ← log2Ceil n
  let bufSize ← sgrrOtExtHelper n mal
  enforceThat (n > 1) "n > (uint32_t)1" n 1
  enforceThat (128 ≥ base.size) "(uint32_t)128 >= base_ot.Size()" 128 base.size
  enforceThat (base.size ≥ otNum) "base_ot.Size() >= ot_num" base.size otNum
  enforceThat (recvBuf.length = bufSize) "static_cast<uint64_t>(recv_buf.size()) == buf_size"
    recvBuf.length bufSize
  enforce (otNum > 0) "ot_num > 0" ""
  let choice ← base.copyBitBuf
  let index ← getPuncturedIndex choice (otNum - 1)
  enforceThat (index.toNat < n) "index < n" index.toNat n
  let output ← sgrrRecvTree T true base n otNum choice (bufPairs recvBuf) output
  if mal then
    let proof ← SgrrCheckMsg.unpack ((recvBuf.drop (bufSize - 64)).take 64)
    sgrrRecvCheck T n index.toNat output proof
  else pure output

/-- `SgrrOtExtSend_fixed_index` with a buffer of the given size; the results are `output` and the
buffer, which `send_msgs` fills up to the proof. -/
def sgrrOtExtSendFixedIndexBuf (seed : Uint128) (base : OtSendStore) (n : ℕ)
    (output : List Uint128) (sendBufSize : ℕ) (mal : Bool) :
    Except Exception (List Uint128 × List Bytes.Byte) := do
  let otNum ← log2Ceil n
  let bufSize ← sgrrOtExtHelper n mal
  enforceThat (base.size ≥ otNum) "base_ot.Size() >= ot_num" base.size otNum
  enforceThat (n > 1) "n > (uint32_t)1" n 1
  enforceThat (sendBufSize = bufSize) "static_cast<uint64_t>(send_buf.size()) == buf_size"
    sendBufSize bufSize
  enforce (otNum > 0) "ot_num > 0" ""
  let (output, sendMsgs) ← sgrrSendTree T n otNum
    (fun i => do pure ((← base.getBlock i 1), (← base.getBlock i 0))) seed output
  if mal then
    let proof ← genCheckMsg T n output
    let output ← sgrrRefresh T n output
    pure (output, blockBytes (otNum * 2) (pairBlocks sendMsgs) ++ proof.pack)
  else pure (output, blockBytes (otNum * 2) (pairBlocks sendMsgs))

/-- `SgrrOtExtRecv_fixed_index`. -/
def sgrrOtExtRecvFixedIndex (base : OtRecvStore) (n : ℕ) (output : List Uint128) (mal : Bool) :
    Party (List Uint128) := do
  let bufSize ← sgrrOtExtHelper n mal
  let recvBuf ← recv
  enforceThat (recvBuf.length = bufSize) "static_cast<uint64_t>(recv_buf.size()) == buf_size"
    recvBuf.length bufSize
  sgrrOtExtRecvFixedIndexBuf T base n output recvBuf mal

/-- `SgrrOtExtSend_fixed_index`. -/
def sgrrOtExtSendFixedIndex (seed : Uint128) (base : OtSendStore) (n : ℕ) (output : List Uint128)
    (mal : Bool) : Party (List Uint128) := do
  let bufSize ← sgrrOtExtHelper n mal
  let (output, sendBuf) ← sgrrOtExtSendFixedIndexBuf T seed base n output bufSize mal
  sendAsync sendBuf
  pure output

/-! ### One level -/

/-- The left child of a node. -/
def sgrrLeft (x : Uint128) : Uint128 := T.aesEncrypt 0 x ^^^ x

/-- The right child of a node. -/
def sgrrRight (x : Uint128) : Uint128 := T.aesEncrypt 1 x ^^^ x

section Level

variable {α : Type} (skip : ℕ → Bool) (upd : α → Uint128 → Uint128 → α) (acc : α)

/-- What the loop adds up. -/
def sgrrAcc (m : ℕ) (a : ℕ → Uint128) : α :=
  iterLoop m (fun j acc =>
    if skip j then acc else upd acc (sgrrLeft T (a j)) (sgrrRight T (a j))) acc

theorem sgrrSplit_eq (m : ℕ) (a : ℕ → Uint128) :
    (∀ j < m, skip j = false → (sgrrSplit T m m skip upd a acc).1 j = sgrrLeft T (a j) ∧
      (sgrrSplit T m m skip upd a acc).1 (j + m) = sgrrRight T (a j)) ∧
    (sgrrSplit T m m skip upd a acc).2 = sgrrAcc T skip upd acc m a := by
  -- the seeds before `k` have been visited, those from `k` on are as they were
  have h := iterLoop_inv (n := m) (s := (splitAllSeeds T m a, acc))
    (f := fun j (s : (ℕ → Uint128) × α) => if skip j then s else
      (Function.update (Function.update s.1 j (s.1 j ^^^ a j)) (j + m) (s.1 (j + m) ^^^ a j),
        upd s.2 (s.1 j ^^^ a j) (s.1 (j + m) ^^^ a j)))
    (fun k s =>
      (∀ j < m, k ≤ j → s.1 j = T.aesEncrypt 0 (a j) ∧ s.1 (j + m) = T.aesEncrypt 1 (a j)) ∧
      (∀ j < k, skip j = false → s.1 j = sgrrLeft T (a j) ∧ s.1 (j + m) = sgrrRight T (a j)) ∧
      s.2 = sgrrAcc T skip upd acc k a) ?_ ?_
  · exact h.2
  · refine ⟨fun j hj _ => ⟨if_pos hj, (if_neg (by omega)).trans (by rw [Nat.add_sub_cancel])⟩,
      fun j hj => absurd hj (Nat.not_lt_zero j), rfl⟩
  · rintro k hk s ⟨hrest, hdone, hacc⟩
    cases hskip : skip k with
    | true =>
      refine ⟨fun j hj hkj => hrest j hj (by omega), fun j hj hj' => hdone j ?_ hj', ?_⟩
      · refine Nat.lt_of_le_of_ne (Nat.le_of_lt_succ hj) ?_
        rintro rfl
        nomatch hskip.symm.trans hj'
      · rw [sgrrAcc, iterLoop_succ, if_pos hskip]
        exact hacc
    | false =>
      obtain ⟨hleft, hright⟩ := hrest k hk le_rfl
      simp only [Bool.false_eq_true, if_false, hleft, hright]
      have hother : ∀ j < m, j ≠ k → ∀ x y, (Function.update (Function.update s.1 k x) (k + m) y j =
          s.1 j ∧ Function.update (Function.update s.1 k x) (k + m) y (j + m) = s.1 (j + m)) := by
        intro j hj hne x y
        rw [Function.update_of_ne (by omega), Function.update_of_ne hne,
          Function.update_of_ne (by omega), Function.update_of_ne (by omega)]
        exact ⟨rfl, rfl⟩
      refine ⟨fun j hj hkj => ?_, fun j hj hj' => ?_, ?_⟩
      · rw [(hother j hj (by omega) _ _).1, (hother j hj (by omega) _ _).2]
        exact hrest j hj (by omega)
      · rcases Nat.lt_succ_iff_lt_or_eq.mp hj with hlt | rfl
        · rw [(hother j (by omega) hlt.ne _ _).1, (hother j (by omega) hlt.ne _ _).2]
          exact hdone j hlt hj'
        · rw [Function.update_of_ne (by omega), Function.update_self, Function.update_self]
          exact ⟨rfl, rfl⟩
      · rw [sgrrAcc, iterLoop_succ, if_neg (by simp [hskip]), hacc]
        rfl

theorem sgrrAcc_congr {m : ℕ} {a b : ℕ → Uint128} (h : ∀ j < m, b j = a j) :
    sgrrAcc T skip upd acc m b = sgrrAcc T skip upd acc m a := by
  induction m with
  | zero => rfl
  | succ m ih =>
    have hm := ih fun j hj => h j (by omega)
    rw [sgrrAcc] at hm ⊢
    rw [iterLoop_succ, hm, h m (by omega)]
    rfl

/-- **One level.** The children of the seeds that are not passed over are written, as far as there
is room. -/
theorem sgrrLevel_eq {n i : ℕ} (hi : i < 32) (hin : 2 ^ i ≤ n) {out : List Uint128}
    (hout : n ≤ out.length) (a : ℕ → Uint128) :
    ∃ splits, (∀ j < 2 ^ i, skip j = false → splits j = sgrrLeft T (a j) ∧
        splits (j + 2 ^ i) = sgrrRight T (a j)) ∧
      sgrrLevel T n i skip upd acc (overwrite out 0 (2 ^ i) a) =
        .ok (overwrite (overwrite out 0 (2 ^ i) a) 0 (min (2 ^ (i + 1) % 2 ^ 32) n) splits,
          sgrrAcc T skip upd acc (2 ^ i) a) := by
  have hpow : 2 ^ i < 2 ^ 32 := Nat.pow_lt_pow_right (by omega) hi
  obtain ⟨b, hread, hb⟩ := readSpan_overwrite (show 2 ^ i ≤ out.length by omega) a 0
  obtain ⟨hsplits, hacc⟩ := sgrrSplit_eq T skip upd acc (2 ^ i) b
  refine ⟨_, fun j hj hskip => hb j hj ▸ hsplits j hj hskip, ?_⟩
  rw [sgrrLevel, Nat.mod_eq_of_lt hpow, hread, ok_bind]
  dsimp only
  rw [Nat.min_eq_left hin, writeSpan_eq (by rw [length_overwrite]; omega), hacc,
    sgrrAcc_congr T skip upd acc hb, ← Nat.pow_succ']
  rfl

end Level

/-! ### The sender's tree -/

/-- The nodes of the sender's tree. -/
def sgrrNode (seed : Uint128) (l : ℕ) : ℕ → Uint128 := node (sgrrLeft T) (sgrrRight T) seed l

/-- The sum of the left or of the right children of a level. -/
def sgrrSum (seed : Uint128) (right : Bool) (l : ℕ) : Uint128 :=
  sideSum (sgrrLeft T) (sgrrRight T) right (2 ^ l) (sgrrNode T seed l)

theorem sgrrAcc_send (msgs : Uint128 × Uint128) (m : ℕ) (a : ℕ → Uint128) :
    sgrrAcc T (fun _ => false) (fun msgs left right => (msgs.1 ^^^ left, msgs.2 ^^^ right))
        msgs m a =
      (msgs.1 ^^^ sideSum (sgrrLeft T) (sgrrRight T) false m a,
        msgs.2 ^^^ sideSum (sgrrLeft T) (sgrrRight T) true m a) := by
  refine iterLoop_inv (fun k acc => acc =
    (msgs.1 ^^^ sideSum (sgrrLeft T) (sgrrRight T) false k a,
      msgs.2 ^^^ sideSum (sgrrLeft T) (sgrrRight T) true k a)) (by simp [sideSum]) ?_
  rintro k - _ rfl
  simp [sideSum, xorSum_succ, BitVec.xor_assoc]

variable {i : ℕ}

theorem eq_double_of_sides {L R : Uint128 → Uint128} {a splits : ℕ → Uint128}
    (h : ∀ j < 2 ^ i, splits j = L (a j) ∧ splits (j + 2 ^ i) = R (a j)) {j : ℕ}
    (hj : j < 2 ^ (i + 1)) : splits j = double L R (2 ^ i) a j := by
  rw [double]
  split
  · next hlt => exact (h j hlt).1
  · next hge => rw [← (h (j - 2 ^ i) (by omega)).2, Nat.sub_add_cancel (by omega)]

section Trees

variable {n l : ℕ} (hlow : 2 ^ l < n) (h32 : n < 2 ^ 32) {out : List Uint128}
  (hout : n ≤ out.length)

include hlow h32 hout

/-- **The sender's tree.** Level `31` is the last one that is copied to the output; the messages
are the sums of all levels. -/
theorem sgrrSendTree_eq (init : ℕ → Except Exception (Uint128 × Uint128))
    (w : ℕ → Uint128 × Uint128) (hinit : ∀ i < l + 1, init i = .ok (w i)) (seed : Uint128) :
    ∃ msgs, sgrrSendTree T n (l + 1) init seed out = .ok (overwrite out 0
        (min (2 ^ min (l + 1) 31) n) (sgrrNode T seed (min (l + 1) 31)), msgs) ∧
      ∀ i < l + 1, msgs i =
        ((w i).1 ^^^ sgrrSum T seed false i, (w i).2 ^^^ sgrrSum T seed true i) := by
  have hl : l < 32 := (Nat.pow_lt_pow_iff_right (by omega)).mp (hlow.trans h32)
  have hpos : 1 ≤ n := (Nat.zero_le _).trans_lt hlow
  set state : ℕ → List Uint128 × (ℕ → Uint128 × Uint128) := fun i =>
    (overwrite out 0 (min (2 ^ min i 31) n) (sgrrNode T seed (min i 31)), fun j =>
      if j < i then ((w j).1 ^^^ sgrrSum T seed false j, (w j).2 ^^^ sgrrSum T seed true j)
      else (0, 0)) with hstate
  have hfirst : (out.set 0 seed, fun _ => (0, 0)) = state 0 := by
    rw [hstate]
    dsimp only
    rw [Nat.zero_min, Nat.pow_zero, Nat.min_eq_left hpos, overwrite_one (by omega)]
    rfl
  refine ⟨(state (l + 1)).2, ?_, fun i hi => if_pos hi⟩
  rw [sgrrSendTree, vecSet_of_lt (by omega), ok_bind, hfirst]
  refine forLoop_eq_ok state fun i hi => ?_
  have hpow : 2 ^ i ≤ 2 ^ l := Nat.pow_le_pow_right (by omega) (by omega)
  obtain ⟨splits, hsplits, hlevel⟩ := sgrrLevel_eq T (fun _ => false)
    (fun msgs left right => (msgs.1 ^^^ left, msgs.2 ^^^ right)) (w i) (show i < 32 by omega)
    (by omega) hout (sgrrNode T seed i)
  rw [sgrrAcc_send] at hlevel
  rw [sgrrSendStep, hinit i hi, ok_bind, hstate]
  dsimp only
  rw [Nat.min_eq_left (show i ≤ 31 by omega), Nat.min_eq_left (by omega), hlevel]
  refine congrArg Except.ok (Prod.ext ?_ (update_ite_lt (fun j =>
    ((w j).1 ^^^ sgrrSum T seed false j, (w j).2 ^^^ sgrrSum T seed true j)) _ i))
  rcases Nat.lt_or_ge i 31 with hlt | hge
  · have hpow' : 2 ^ (i + 1) < 2 ^ 32 := Nat.pow_lt_pow_right (by omega) (by omega)
    rw [Nat.mod_eq_of_lt hpow', Nat.min_eq_left (show i + 1 ≤ 31 by omega),
      overwrite_overwrite (le_min (Nat.pow_le_pow_right (by omega) (by omega)) (by omega))]
    exact overwrite_congr fun j hj => eq_double_of_sides (fun j hj => hsplits j hj rfl) (by omega)
  · obtain rfl : i = 31 := by omega
    rw [Nat.mod_self, Nat.zero_min, overwrite_zero, Nat.min_eq_right (show 31 ≤ 31 + 1 by omega),
      Nat.min_eq_left (by omega)]

end Trees

/-! ### The receiver's tree -/

variable {m : ℕ}

theorem toNat_data {b : DynamicBitset} (hsize : b.size = i + 1) (hi : i < 128)
    (h : ∀ j ≤ i, b.bit j = m.testBit j) : ∃ p, b.data 0 = .ok p ∧ p.toNat = m % 2 ^ (i + 1) := by
  refine ⟨_, DynamicBitset.data_eq (by omega), Nat.eq_of_testBit_eq fun j => ?_⟩
  rw [BitVec.testBit_toNat, getLsbD_bitsOf, Nat.zero_add, Nat.testBit_mod_two_pow]
  by_cases hj : j < i + 1
  · rw [decide_eq_true hj, decide_eq_true (by omega), h j (by omega)]
  · rw [decide_eq_false hj, DynamicBitset.bit_of_le (by omega), Bool.and_false, Bool.false_and]

section Index

variable {choice : DynamicBitset} {i idx : ℕ} (hi : i < 128)
  (hc : ∀ j ≤ i, choice.bit j = idx.testBit j)

include hi hc

theorem getPuncturedIndex_eq :
    ∃ p, getPuncturedIndex choice i = .ok p ∧ p.toNat = idx % 2 ^ (i + 1) := by
  refine toNat_data (choice.size_resize (i + 1)) hi fun j hj => ?_
  rw [DynamicBitset.bit_resize, decide_eq_true (by omega), Bool.true_and, hc j hj]

theorem getInsertedIndex_eq :
    ∃ p, getInsertedIndex choice i = .ok p ∧ p.toNat = (idx ^^^ 2 ^ i) % 2 ^ (i + 1) := by
  obtain ⟨b, hb, hsize, hbits⟩ := DynamicBitset.flip_eq (b := choice.resize (i + 1))
    (show i < i + 1 by omega)
  obtain ⟨p, hp, hnat⟩ := toNat_data (m := idx ^^^ 2 ^ i) hsize hi fun j hj => by
    rw [hbits, DynamicBitset.bit_resize, decide_eq_true (by omega), Bool.true_and, hc j hj,
      Nat.testBit_xor, Nat.testBit_two_pow, decide_eq_decide.mpr eq_comm]
  exact ⟨p, by rw [getInsertedIndex, hb, ok_bind, hp], hnat⟩

end Index

/-- The sum that the receiver adds to, over all seeds except that of node `p`. -/
theorem sgrrAcc_recv {skip : ℕ → Bool} {p : ℕ} (hskip : ∀ j < m, skip j = decide (j = p)) (c : Bool)
    (v : Uint128) (a : ℕ → Uint128) :
    sgrrAcc T skip (fun v left right => v ^^^ if c then left else right) v m a =
      v ^^^ sideSumExcept (sgrrLeft T) (sgrrRight T) (!c) p m a := by
  refine iterLoop_inv (fun k acc => acc =
    v ^^^ sideSumExcept (sgrrLeft T) (sgrrRight T) (!c) p k a) (by simp [sideSumExcept]) ?_
  rintro k hk _ rfl
  rw [hskip k hk, sideSumExcept, sideSumExcept, xorSum_succ]
  by_cases hkp : k = p
  · simp [hkp]
  · cases c <;> simp [hkp, BitVec.xor_assoc]

/-- What the receiver learns for a level: the sum of the side that its index does not take. -/
def sgrrWord (base : OtRecvStore) (idx : ℕ) (msgs : ℕ → Uint128 × Uint128) (i : ℕ) : Uint128 :=
  (if idx.testBit i then (msgs i).1 else (msgs i).2) ^^^ base.block i

/-- The receiver's output before level `i`, when the labels of the level are `a`. -/
def sgrrState (out : List Uint128) (n i : ℕ) (a : ℕ → Uint128) : List Uint128 :=
  if i = 0 then out else overwrite out 0 (min (2 ^ i) n) a

theorem sgrr_skip {idx j : ℕ} (hj : j < 2 ^ i) :
    (j = idx % 2 ^ (i + 1) ∨ j = (idx ^^^ 2 ^ i) % 2 ^ (i + 1)) ↔ j = idx % 2 ^ i := by
  rw [mod_two_pow_succ_eq_ite, xor_two_pow_mod]
  split <;> omega

section Receiver

variable {base : OtRecvStore} {n idx : ℕ} (hidx : idx < n) {choice : DynamicBitset}
  {msgs : ℕ → Uint128 × Uint128} {out : List Uint128} (hout : n ≤ out.length) {i : ℕ}
  (hpow : 2 ^ i < n) (hbase : i < base.size) (hsize : i < choice.size) (h128 : i < 128)
  (hc : ∀ j ≤ i, choice.bit j = idx.testBit j) (guarded : Bool)

include hout hpow in
/-- The children that the receiver can compute on a level before the last one. Level zero has
none. -/
theorem sgrrRecvLevel_eq (hi : i < 31) (skip : ℕ → Bool)
    (hskip : ∀ j < 2 ^ i, skip j = decide (j = idx % 2 ^ i)) (c : Bool) (v : Uint128)
    (a : ℕ → Uint128) :
    ∃ g, (∀ j < 2 ^ (i + 1), j % 2 ^ i ≠ idx % 2 ^ i →
        g j = double (sgrrLeft T) (sgrrRight T) (2 ^ i) a j) ∧
      sgrrRecvLevel T n i skip c v (sgrrState out n i a) =
        .ok (overwrite out 0 (min (2 ^ (i + 1)) n) g,
          v ^^^ sideSumExcept (sgrrLeft T) (sgrrRight T) (!c) (idx % 2 ^ i) (2 ^ i) a) := by
  rcases Nat.eq_zero_or_pos i with rfl | hpos
  · refine ⟨fun j => out.getD j 0, fun j _ hj => absurd ?_ hj, ?_⟩
    · rw [Nat.pow_zero, Nat.mod_one, Nat.mod_one]
    · have hsum : sideSumExcept (sgrrLeft T) (sgrrRight T) (!c) (idx % 2 ^ 0) (2 ^ 0) a = 0 :=
        xorSum_eq_zero fun j hj => if_pos (by omega)
      rw [sgrrRecvLevel, if_neg (by omega), overwrite_self, sgrrState, if_pos rfl, hsum,
        show v ^^^ (0 : Uint128) = v by simp]
      rfl
  · have hlt : 2 ^ (i + 1) < 2 ^ 32 := Nat.pow_lt_pow_right (by omega) (by omega)
    have hle : 2 ^ i ≤ 2 ^ (i + 1) := Nat.pow_le_pow_right (by omega) (by omega)
    obtain ⟨splits, hsplits, hlevel⟩ := sgrrLevel_eq T skip
      (fun v left right => v ^^^ if c then left else right) v (show i < 32 by omega) hpow.le hout a
    rw [Nat.mod_eq_of_lt hlt, overwrite_overwrite (le_min hle hpow.le),
      sgrrAcc_recv T hskip] at hlevel
    refine ⟨splits, fun j hj hne => ?_, ?_⟩
    · have hmod : j % 2 ^ i < 2 ^ i := Nat.mod_lt _ (Nat.two_pow_pos i)
      obtain ⟨hleft, hright⟩ := hsplits (j % 2 ^ i) hmod (by rw [hskip _ hmod, decide_eq_false hne])
      rw [double]
      rcases (mod_eq_iff hmod (Nat.pow_succ' ▸ hj)).mp rfl with heq | heq
      · rw [if_pos (by omega), heq, hleft]
      · rw [if_neg (by omega), heq, hright, Nat.add_sub_cancel]
    · rw [sgrrRecvLevel, if_pos (by omega), sgrrState, if_neg (by omega), Nat.min_eq_left hpow.le,
        hlevel]

/-- The labels after the punctured node is cleared and its sibling inserted. -/
theorem sgrr_insert {a g : ℕ → Uint128} (v : Uint128)
    (hg : ∀ j < 2 ^ (i + 1), j % 2 ^ i ≠ idx % 2 ^ i →
      g j = double (sgrrLeft T) (sgrrRight T) (2 ^ i) a j) {j : ℕ} (hj : j < 2 ^ (i + 1)) :
    Function.update (Function.update g (idx % 2 ^ (i + 1)) 0) ((idx ^^^ 2 ^ i) % 2 ^ (i + 1))
        (v ^^^ sideSumExcept (sgrrLeft T) (sgrrRight T) (!idx.testBit i) (idx % 2 ^ i) (2 ^ i) a)
          j =
      puncturedNext (sgrrLeft T) (sgrrRight T) v idx i a j := by
  have hp : idx % 2 ^ i < 2 ^ i := Nat.mod_lt _ (Nat.two_pow_pos i)
  have hne : idx % 2 ^ (i + 1) ≠ (idx ^^^ 2 ^ i) % 2 ^ (i + 1) := by
    rw [mod_two_pow_succ_eq_ite, xor_two_pow_mod]
    split <;> omega
  have hmod : j % 2 ^ i = idx % 2 ^ i ↔
      j = idx % 2 ^ (i + 1) ∨ j = (idx ^^^ 2 ^ i) % 2 ^ (i + 1) := by
    rw [mod_eq_iff hp (Nat.pow_succ' ▸ hj), mod_two_pow_succ_eq_ite, xor_two_pow_mod]
    split <;> omega
  rw [puncturedNext]
  by_cases hpath : j = idx % 2 ^ (i + 1)
  · rw [if_pos hpath, Function.update_of_ne (hpath ▸ hne), hpath, Function.update_self]
  rw [if_neg hpath]
  by_cases hsib : j = (idx ^^^ 2 ^ i) % 2 ^ (i + 1)
  · rw [if_pos (hmod.mpr (.inr hsib)), hsib, Function.update_self]
  · have hout : ¬j % 2 ^ i = idx % 2 ^ i := fun h => (hmod.mp h).elim hpath hsib
    rw [if_neg hout, Function.update_of_ne hsib, Function.update_of_ne hpath, hg j hj hout]

include hidx hout hpow hbase hsize h128 hc

/-- **One step of the receiver** on a level before the last one of thirty-two. -/
theorem sgrrRecvStep_eq (hi : i < 31) (a : ℕ → Uint128) :
    sgrrRecvStep T guarded base n choice msgs i (sgrrState out n i a) =
      .ok (overwrite out 0 (min (2 ^ (i + 1)) n)
        (puncturedNext (sgrrLeft T) (sgrrRight T) (sgrrWord base idx msgs i) idx i a)) := by
  obtain ⟨p, hp, hpn⟩ := getPuncturedIndex_eq h128 hc
  obtain ⟨q, hq, hqn⟩ := getInsertedIndex_eq h128 hc
  obtain ⟨g, hg, hlevel⟩ := sgrrRecvLevel_eq T hout hpow hi
    (fun j => decide (j = p.toNat ∨ j = q.toNat))
    (fun j hj => decide_eq_decide.mpr (by rw [hpn, hqn]; exact sgrr_skip hj)) (idx.testBit i)
    (sgrrWord base idx msgs i) a
  have hpn' : p.toNat < n := hpn ▸ (Nat.mod_le _ _).trans_lt hidx
  have hpow' : p.toNat < 2 ^ (i + 1) := hpn ▸ Nat.mod_lt _ (Nat.two_pow_pos _)
  have hqow' : q.toNat < 2 ^ (i + 1) := hqn ▸ Nat.mod_lt _ (Nat.two_pow_pos _)
  rw [sgrrRecvStep, hp, ok_bind, hq, ok_bind, DynamicBitset.test_of_lt hsize, ok_bind,
    OtRecvStore.getBlock_eq hbase, ok_bind, hc i le_rfl]
  dsimp only
  rw [← sgrrWord, hlevel, ok_bind]
  rw [vecSetIf, if_pos (.inr hpn'), vecSet_of_lt (by rw [length_overwrite]; omega), ok_bind,
    overwrite_set (lt_min hpow' hpn'), vecSetIf]
  have hnext : ∀ j < min (2 ^ (i + 1)) n, _ := fun j hj =>
    sgrr_insert T (sgrrWord base idx msgs i) hg (lt_min_iff.mp hj).1
  rw [← hpn, ← hqn] at hnext
  split
  · next hqlt =>
    rw [vecSet_of_lt (by rw [length_overwrite]; omega), overwrite_set (lt_min hqow' hqlt)]
    exact congrArg Except.ok (overwrite_congr hnext)
  · next hqge =>
    refine congrArg Except.ok (overwrite_congr fun j hj => ?_)
    exact (Function.update_of_ne (by omega) _ _).symm.trans (hnext j hj)

end Receiver

section RecvTree

variable {base : OtRecvStore} {n idx l : ℕ} (hidx : idx < n) (hlow : 2 ^ l < n)
  {choice : DynamicBitset} {out : List Uint128} (hout : n ≤ out.length)
  (hbase : l + 1 ≤ base.size) (hsize : l + 1 ≤ choice.size)
  (hc : ∀ j < l + 1, choice.bit j = idx.testBit j) (guarded : Bool)

include hidx hlow hout hbase hsize hc

/-- **The receiver's tree**, up to level `31`, is the punctured tree. -/
theorem sgrrRecvTree_eq (msgs : ℕ → Uint128 × Uint128) {k : ℕ} (hk : k ≤ l + 1) (h31 : k ≤ 31) :
    sgrrRecvTree T guarded base n k choice msgs out = .ok (sgrrState out n k
      (punctured (sgrrLeft T) (sgrrRight T) (sgrrWord base idx msgs) idx k)) := by
  refine forLoop_eq_ok (fun i => sgrrState out n i
    (punctured (sgrrLeft T) (sgrrRight T) (sgrrWord base idx msgs) idx i)) fun i hi => ?_
  have hpow : 2 ^ i ≤ 2 ^ l := Nat.pow_le_pow_right (by omega) (by omega)
  rw [sgrrRecvStep_eq T hidx hout (by omega) (by omega) (by omega) (by omega)
    (fun j hj => hc j (by omega)) guarded (by omega), sgrrState]
  rfl

end RecvTree

/-! ### The check and the refreshed leaves -/

/-- The hash of a leaf. -/
def leafHash (x : Uint128) : BitVec (8 * 32) := T.blake3 (Bytes.wordBytes 16 x)

/-- The message for the leaves `f`. -/
def sgrrProof (n : ℕ) (f : ℕ → Uint128) : SgrrCheckMsg :=
  ⟨xorSum n fun i => leafHash T (f i),
    T.blake3 (Bytes.encode 32 ((List.range n).map fun i => leafHash T (f i)))⟩

theorem SgrrCheckMsg.unpack_pack (msg : SgrrCheckMsg) : unpack msg.pack = .ok msg := by
  rw [unpack, pack, Bytes.wordAt_encode rfl,
    Bytes.wordAt_encode rfl]
  rfl

section Check

variable {n : ℕ} {out : List Uint128} (hout : n ≤ out.length) (f : ℕ → Uint128)

include hout

theorem checkHashes_eq (t : BitVec (8 * 32)) :
    checkHashes T n (overwrite out 0 n f) t = .ok ((List.range n).map fun i => leafHash T (f i),
      t ^^^ xorSum n fun i => leafHash T (f i)) := by
  have hstep : ∀ i < n, checkHash T (overwrite out 0 n f) i
      ((List.range i).map fun i => leafHash T (f i), t ^^^ xorSum i fun i => leafHash T (f i)) =
        .ok ((List.range (i + 1)).map fun i => leafHash T (f i),
          t ^^^ xorSum (i + 1) fun i => leafHash T (f i)) := by
    intro i hi
    rw [checkHash, vecGet_of_getElem? (getElem?_overwrite_of_mem (by omega) (by omega)),
      List.range_succ, List.map_append, xorSum_succ, ← BitVec.xor_assoc]
    rfl
  have hloop := forLoop_eq_ok (fun k => ((List.range k).map fun i => leafHash T (f i),
    t ^^^ xorSum k fun i => leafHash T (f i))) hstep
  simpa [checkHashes] using hloop

theorem genCheckMsg_eq : genCheckMsg T n (overwrite out 0 n f) = .ok (sgrrProof T n f) := by
  rw [genCheckMsg, checkHashes_eq T hout, ok_bind]
  simp
  rfl

theorem sgrrRefresh_eq :
    sgrrRefresh T n (overwrite out 0 n f) = .ok (overwrite out 0 n fun i => crHash128 T (f i)) := by
  obtain ⟨g, hread, hg⟩ := readSpan_overwrite hout f 0
  rw [sgrrRefresh, hread, ok_bind, writeSpan_eq (by rw [length_overwrite]; omega),
    overwrite_overwrite le_rfl]
  refine congrArg Except.ok (overwrite_congr fun i hi => ?_)
  rw [crHashArray_eq T hi, hg i hi]

/-- **The check accepts** the leaves of the punctured tree: the hash of the missing leaf is what the
sum of the sender leaves over. -/
theorem verifyCheckMsg_eq {index : ℕ} (hindex : index < n) {g : ℕ → Uint128}
    (hg : ∀ i < n, i ≠ index → g i = f i) :
    verifyCheckMsg T n index (overwrite out 0 n g) (sgrrProof T n f) = .ok true := by
  have hmissing := xorSum_xor_xorSum hindex
    (g := fun i => leafHash T (g i)) fun i hi hne => by rw [hg i hi hne]
  have hset : ((List.range n).map fun i => leafHash T (g i)).set index (leafHash T (f index)) =
      (List.range n).map fun i => leafHash T (f i) := by
    refine List.ext_getElem? fun i => ?_
    rw [List.getElem?_set, List.length_map, List.length_range, List.getElem?_map, List.getElem?_map]
    by_cases hi : i < n
    · rw [List.getElem?_range hi]
      by_cases hne : index = i
      · rw [if_pos hne, if_pos hindex, hne]
        rfl
      · rw [if_neg hne, Option.map_some, Option.map_some, hg i hi (Ne.symm hne)]
    · rw [if_neg (by omega), List.getElem?_eq_none (by simpa using hi)]
      rfl
  rw [verifyCheckMsg, enforceThat_bind hindex, checkHashes_eq T hout, ok_bind]
  dsimp only
  rw [vecGet_of_getElem? (a := leafHash T (g index)) (by simp [hindex]), ok_bind,
    vecSet_of_lt (by simpa using hindex), ok_bind, sgrrProof]
  rw [hmissing, BitVec.xor_assoc, BitVec.xor_self, BitVec.xor_zero, hset]
  simp
  rfl

theorem sgrrRecvCheck_eq {index : ℕ} (hindex : index < n) {g : ℕ → Uint128}
    (hg : ∀ i < n, i ≠ index → g i = f i) :
    sgrrRecvCheck T n index (overwrite out 0 n g) (sgrrProof T n f) =
      .ok (overwrite out 0 n (Function.update (fun i => crHash128 T (g i)) index 0)) := by
  rw [sgrrRecvCheck, verifyCheckMsg_eq T hout f hindex hg, ok_bind, enforce_bind rfl,
    sgrrRefresh_eq T hout, ok_bind, vecSet_of_lt (by rw [length_overwrite]; omega),
    overwrite_set hindex]

end Check

/-! ### Correctness -/

/-- **A punctured vector.** The first `n` entries of the two vectors are equal, except that the
second one is zero at the index. -/
def PuncturedAt (n index : ℕ) (a b : List Uint128) : Prop :=
  ∀ i < n, ∃ x, a[i]? = some x ∧ b[i]? = some (if i = index then 0 else x)

variable {n index : ℕ} {f g : ℕ → Uint128}

theorem puncturedAt_overwrite {a b : List Uint128} (ha : n ≤ a.length) (hb : n ≤ b.length)
    (h : ∀ i < n, g i = if i = index then 0 else f i) :
    PuncturedAt n index (overwrite a 0 n f) (overwrite b 0 n g) := by
  intro i hi
  refine ⟨f i, getElem?_overwrite_of_mem (by omega) (by omega), ?_⟩
  rw [getElem?_overwrite_of_mem (by omega) (by omega), Nat.sub_zero, h i hi]

theorem update_crHash (h : ∀ i < n, g i = if i = index then 0 else f i) (hi : i < n) :
    Function.update (fun i => crHash128 T (g i)) index 0 i =
      if i = index then 0 else crHash128 T (f i) := by
  by_cases hne : i = index
  · rw [if_pos hne, hne, Function.update_self]
  · rw [if_neg hne, Function.update_of_ne hne, h i hi, if_neg hne]

theorem sgrr_leaves {l idx : ℕ} {seed : Uint128} {v : ℕ → Uint128} (hidx : idx < n)
    (hn : n ≤ 2 ^ (l + 1)) (hv : ∀ i < l + 1, v i = sgrrSum T seed (!idx.testBit i) i) :
    ∀ i < n, punctured (sgrrLeft T) (sgrrRight T) v idx (l + 1) i =
      if i = idx then 0 else sgrrNode T seed (l + 1) i := by
  intro i hi
  rw [punctured_eq (sgrrLeft T) (sgrrRight T) hv le_rfl (by omega), Nat.mod_eq_of_lt (by omega)]
  rfl

theorem bufPairs_blockBytes (hi : i < m) (msgs : ℕ → Uint128 × Uint128) (rest : List Bytes.Byte) :
    bufPairs (blockBytes (m * 2) (pairBlocks msgs) ++ rest) i = msgs i := by
  have hword : ∀ k < m * 2, Bytes.wordAt 16 (blockBytes (m * 2) (pairBlocks msgs) ++ rest) k =
      pairBlocks msgs k := fun k hk => by
    rw [Bytes.wordAt_append (by rw [length_blockBytes]; omega), wordAt_blockBytes hk]
  rw [bufPairs, hword _ (by omega), hword _ (by omega), pairBlocks, pairBlocks, if_pos (by omega),
    if_neg (by omega), Nat.mul_div_cancel_left i (by omega), show (2 * i + 1) / 2 = i by omega]

theorem sgrrMask_eq {base : OtSendStore} {otNum : ℕ} {m : ℕ → Bool → Uint128}
    (hm : ∀ i < otNum, ∀ b : Bool, base.getBlock i b.toNat = .ok (m i b)) (masked : ℕ → Bool)
    (msgs : ℕ → Uint128 × Uint128) :
    ∃ v, sgrrMask base otNum masked msgs = .ok v ∧ ∀ i < otNum,
      v i = ((msgs i).1 ^^^ m i (masked i), (msgs i).2 ^^^ m i (!masked i)) := by
  refine ⟨_, forLoop_update (fun i x => (x.1 ^^^ m i (masked i), x.2 ^^^ m i (!masked i)))
    (fun i hi msgs => ?_) msgs, fun i hi => if_pos hi⟩
  have hflip : 1 - (masked i).toNat = (!masked i).toNat := by cases masked i <;> rfl
  rw [hm i hi, hflip, hm i hi]
  rfl

theorem sgrrOtExtRest_session (hindex : index < n) {a b : List Uint128} (ha : n ≤ a.length)
    (hb : n ≤ b.length) (h : ∀ i < n, g i = if i = index then 0 else f i) (mal : Bool) :
    Session False (sgrrOtExtSendRest T n (overwrite a 0 n f) mal)
      (sgrrOtExtRecvRest T n index (overwrite b 0 n g) mal) (PuncturedAt n index) := by
  cases mal with
  | false => exact .ret (puncturedAt_overwrite ha hb h)
  | true =>
    rw [sgrrOtExtSendRest, sgrrOtExtRecvRest, genCheckMsg_eq T ha]
    refine .send_recv ?_
    rw [enforce_of_pos (by rw [SgrrCheckMsg.pack]; rfl), SgrrCheckMsg.unpack_pack,
      sgrrRefresh_eq T ha]
    simp only [liftM_ok, Proc.pure_bind]
    rw [sgrrRecvCheck_eq T hb f hindex fun i hi hne => by rw [h i hi, if_neg hne]]
    exact .ret (puncturedAt_overwrite ha hb fun i hi => update_crHash T h hi)

theorem makeDynamicBitset_eq (index : ℕ) {l : ℕ} (hl : l < 32) :
    ∃ choice, makeDynamicBitset (BitVec.ofNat 128 index) (l + 1) = .ok choice ∧
      choice.size = l + 1 ∧ ∀ j < l + 1, choice.bit j = index.testBit j := by
  refine ⟨_, ?_, rfl, fun j hj => indexChoice_bit hj (by omega)⟩
  rw [makeDynamicBitset, enforce_of_pos]
  · rfl
  · rw [DynamicBitset.blocks_length, DynamicBitset.size_resize, blocksRequired]
    split <;> omega

section Sessions

variable {r : OtRecvStore} {s : OtSendStore} (hbase : BaseOts r s) {n l : ℕ} (h1 : 1 < n)
  (h32 : n < 2 ^ 32) (hlog : log2Ceil n = .ok (l + 1)) (hlow : 2 ^ l < n) (hsize : l + 1 ≤ r.size)
  (h128 : r.size ≤ 128) (seed : Uint128) {outS outR : List Uint128} (mal : Bool)

include hbase h1 h32 hlog hlow hsize h128

/-- The two programs up to their ends, for given trees. The receiver grows its tree from one sum
for each level. -/
theorem sgrrOtExt_session_of_trees {a : List Uint128} {sums : ℕ → Uint128 × Uint128}
    {R : List Uint128 → List Uint128 → Prop}
    (hsend : sgrrSendTree T n (l + 1) (fun _ => pure (0, 0)) seed outS = .ok (a, sums)) {index : ℕ}
    (hindex : index < n)
    (hrecv : ∀ choice msgs, choice.size = l + 1 →
      (∀ j < l + 1, choice.bit j = index.testBit j) →
      (∀ i < l + 1, sgrrWord r index msgs i =
        if index.testBit i then (sums i).1 else (sums i).2) →
      ∃ b, sgrrRecvTree T false r n (l + 1) choice msgs outR = .ok b ∧
        Session False (sgrrOtExtSendRest T n a mal) (sgrrOtExtRecvRest T n index b mal) R) :
    Session False (sgrrOtExtSend T seed s n outS mal) (sgrrOtExtRecv T r n index outR mal) R := by
  have hl : l < 32 := (Nat.pow_lt_pow_iff_right (by omega)).mp (hlow.trans h32)
  choose! m hm hblock using hbase.getBlock_eq
  obtain ⟨choice, hchoice, hcsize, hcbits⟩ := makeDynamicBitset_eq index hl
  obtain ⟨masked, hmask, hmsize, hmbits⟩ := maskChoice_eq hsize
    (choice.size_complement.trans hcsize)
  obtain ⟨bits, hbits, hbit⟩ := memcpyBits_bitsetBytes masked
  rw [hmsize] at hbits hbit
  obtain ⟨msgs, hmsgs, hmsg⟩ := sgrrMask_eq
    (show ∀ i < l + 1, ∀ b : Bool, s.getBlock i b.toNat = .ok (m i b) from
      fun i hi => hm i (by omega)) bits sums
  have hlen : (blockBytes ((l + 1) * 2) (pairBlocks msgs)).length ≥ (l + 1) * 2 * 16 := by
    rw [length_blockBytes]
    omega
  have hpairs : ∀ i < l + 1, bufPairs (blockBytes ((l + 1) * 2) (pairBlocks msgs)) i = msgs i :=
    fun i hi => by simpa using bufPairs_blockBytes hi msgs []
  obtain ⟨b, htree, hrest⟩ := hrecv choice
    (bufPairs (blockBytes ((l + 1) * 2) (pairBlocks msgs))) hcsize hcbits fun i hi => by
      have hbi : bits i = (!index.testBit i ^^ r.choice i) := by
        rw [hbit i hi, hmbits i hi, DynamicBitset.bit_complement (by omega), hcbits i hi]
      rw [sgrrWord, hpairs i hi, hmsg i hi, hblock i (by omega), hbi]
      cases index.testBit i <;> simp
  rw [sgrrOtExtSend, sgrrOtExtRecv, hlog]
  simp only [liftM_ok, Proc.pure_bind, enforceThat_of_pos h1, enforceThat_of_pos hindex,
    enforceThat_of_pos h128, enforceThat_of_pos hsize,
    enforceThat_of_pos (hbase.size_eq ▸ hsize), hchoice, hmask, hsend]
  refine .recv_send ?_
  simp only [liftM_ok, Proc.pure_bind, hbits, hmsgs]
  refine .send_recv ?_
  simp only [enforce_of_pos hlen, htree]
  exact hrest

theorem sgrrOtExt_session (h31 : n ≤ 2 ^ 31) (hn : n ≤ 2 ^ (l + 1)) (hS : n ≤ outS.length)
    (hR : n ≤ outR.length) {index : ℕ} (hindex : index < n) :
    Session False (sgrrOtExtSend T seed s n outS mal) (sgrrOtExtRecv T r n index outR mal)
      (PuncturedAt n index) := by
  have hl : l + 1 ≤ 31 := (Nat.pow_lt_pow_iff_right (by omega)).mp (hlow.trans_le h31)
  obtain ⟨sums, hsend, hsums⟩ := sgrrSendTree_eq T hlow h32 hS
    (fun _ => pure (0, 0)) (fun _ => (0, 0)) (fun _ _ => rfl) seed
  rw [Nat.min_eq_left hl, Nat.min_eq_right hn] at hsend
  refine sgrrOtExt_session_of_trees T hbase h1 h32 hlog hlow hsize h128 seed mal hsend hindex
    fun choice msgs hcsize hcbits hword => ?_
  have htree := sgrrRecvTree_eq T hindex hlow hR hsize hcsize.ge hcbits false msgs le_rfl hl
  rw [sgrrState, Nat.min_eq_right hn] at htree
  refine ⟨_, htree,
    sgrrOtExtRest_session T hindex hS hR (sgrr_leaves T hindex hn fun i hi => ?_) mal⟩
  rw [hword i hi, hsums i hi]
  cases index.testBit i <;> simp

end Sessions

/-! ### Fixed indexes -/

section FixedIndex

variable {r : OtRecvStore} {s : OtSendStore} (hbase : BaseOts r s) {n l : ℕ} (h1 : 1 < n)
  (h31 : n ≤ 2 ^ 31) (hlog : log2Ceil n = .ok (l + 1)) (hlow : 2 ^ l < n) (hn : n ≤ 2 ^ (l + 1))
  (hsize : l + 1 ≤ r.size) (h128 : r.size ≤ 128) (seed : Uint128) {outS outR : List Uint128}
  (hS : n ≤ outS.length) (hR : n ≤ outR.length) (mal : Bool)
  (hidx : (bitsOf (l + 1) r.choice).toNat < n)

include hlog in
theorem sgrrOtExtHelper_eq :
    sgrrOtExtHelper n mal = .ok ((l + 1) * 16 * 2 + if mal then 64 else 0) := by
  rw [sgrrOtExtHelper, hlog]
  rfl

include h1 h31 hlow hlog hn hsize h128 hR hidx in
/-- The receiver's tree from a buffer that starts with the sums of the sender. -/
theorem sgrrOtExtRecvFixedIndexBuf_eq {sums : ℕ → Uint128 × Uint128}
    (hsums : ∀ i < l + 1, (if r.choice i then (sums i).1 else (sums i).2) ^^^ r.block i =
      sgrrSum T seed (!r.choice i) i) {rest : List Bytes.Byte}
    (hrest : rest.length = if mal then 64 else 0) :
    ∃ g, (∀ i < n, g i = if i = (bitsOf (l + 1) r.choice).toNat then 0
        else sgrrNode T seed (l + 1) i) ∧
      sgrrOtExtRecvFixedIndexBuf T r n outR
          (blockBytes ((l + 1) * 2) (pairBlocks sums) ++ rest) mal =
        if mal then do
          let proof ← SgrrCheckMsg.unpack rest
          sgrrRecvCheck T n (bitsOf (l + 1) r.choice).toNat (overwrite outR 0 n g) proof
        else .ok (overwrite outR 0 n g) := by
  have hl : l + 1 ≤ 31 := (Nat.pow_lt_pow_iff_right (by omega)).mp (hlow.trans_le h31)
  obtain ⟨choice, hcopy, hcsize, hcbits⟩ := r.copyBitBuf_eq
  have htest : ∀ j < l + 1, choice.bit j = (bitsOf (l + 1) r.choice).toNat.testBit j := by
    intro j hj
    rw [BitVec.testBit_toNat, getLsbD_bitsOf, hcbits, decide_eq_true hj,
      decide_eq_true (show j < r.size by omega)]
  set idx := (bitsOf (l + 1) r.choice).toNat with hidxdef
  set buf := blockBytes ((l + 1) * 2) (pairBlocks sums) ++ rest with hbuf
  obtain ⟨p, hp, hpn⟩ := getPuncturedIndex_eq (show l < 128 by omega)
    (show ∀ j ≤ l, choice.bit j = idx.testBit j from fun j hj => htest j (by omega))
  rw [Nat.mod_eq_of_lt (by omega)] at hpn
  have hlen : buf.length = (l + 1) * 16 * 2 + if mal then 64 else 0 := by
    rw [hbuf, List.length_append, length_blockBytes, hrest]
    omega
  have htree := sgrrRecvTree_eq T hidx hlow hR hsize (hsize.trans hcsize.ge) htest true
    (bufPairs buf) le_rfl hl
  rw [sgrrState, if_neg (by omega), Nat.min_eq_right hn] at htree
  refine ⟨_, sgrr_leaves T (v := sgrrWord r idx (bufPairs buf)) hidx hn fun i hi => ?_, ?_⟩
  · have hbit : idx.testBit i = r.choice i := by
      rw [hidxdef, BitVec.testBit_toNat, getLsbD_bitsOf_of_lt hi]
    rw [sgrrWord, hbuf, bufPairs_blockBytes hi, hbit, hsums i hi]
  · rw [sgrrOtExtRecvFixedIndexBuf, hlog, ok_bind, sgrrOtExtHelper_eq hlog, ok_bind,
      enforceThat_bind h1, enforceThat_bind h128, enforceThat_bind hsize, enforceThat_bind hlen,
      enforce_bind (by omega), hcopy, ok_bind, Nat.add_sub_cancel, hp, ok_bind, hpn,
      enforceThat_bind hidx, htree, ok_bind]
    cases mal with
    | false =>
      simp only [Bool.false_eq_true, if_false]
      rfl
    | true =>
      rw [if_pos rfl] at hrest
      have hdrop : (buf.drop ((l + 1) * 16 * 2 + 64 - 64)).take 64 = rest := by
        rw [hbuf, List.drop_left' (by rw [length_blockBytes]; omega),
          List.take_of_length_le hrest.le]
      simp only [if_true]
      rw [hdrop]

include hbase h1 h31 hlow hlog hn hsize h128 hS hR hidx

/-- **The buffers.** The receiver accepts what the sender has put in the buffer, and has its
leaves except for the one that its choices spell. -/
theorem sgrrOtExtFixedIndexBuf_eq :
    ∃ a b buf, sgrrOtExtSendFixedIndexBuf T seed s n outS
        ((l + 1) * 16 * 2 + if mal then 64 else 0) mal = .ok (a, buf) ∧
      buf.length = ((l + 1) * 16 * 2 + if mal then 64 else 0) ∧
      sgrrOtExtRecvFixedIndexBuf T r n outR buf mal = .ok b ∧
      PuncturedAt n (bitsOf (l + 1) r.choice).toNat a b := by
  have hl : l + 1 ≤ 31 := (Nat.pow_lt_pow_iff_right (by omega)).mp (hlow.trans_le h31)
  choose! m hm hblock using hbase.getBlock_eq
  obtain ⟨sums, hsend, hsums⟩ := sgrrSendTree_eq T hlow (by omega) hS
    (fun i => do pure ((← s.getBlock i 1), (← s.getBlock i 0)))
    (fun i => (m i true, m i false)) (fun i hi => by
      have h0 : s.getBlock i 0 = .ok (m i false) := hm i (by omega) false
      have h1 : s.getBlock i 1 = .ok (m i true) := hm i (by omega) true
      rw [h1, h0]
      rfl) seed
  rw [Nat.min_eq_left hl, Nat.min_eq_right hn] at hsend
  have hword : ∀ i < l + 1, (if r.choice i then (sums i).1 else (sums i).2) ^^^ r.block i =
      sgrrSum T seed (!r.choice i) i := by
    intro i hi
    have hcancel : ∀ x y : Uint128, x ^^^ y ^^^ x = y := fun x y => by
      rw [BitVec.xor_comm, ← BitVec.xor_assoc, BitVec.xor_self, BitVec.zero_xor]
    rw [hsums i hi, hblock i (by omega)]
    cases r.choice i <;> simp [hcancel]
  have hsendBuf : ∀ mal, sgrrOtExtSendFixedIndexBuf T seed s n outS
      ((l + 1) * 16 * 2 + if mal then 64 else 0) mal = if mal then do
        let proof ← genCheckMsg T n (overwrite outS 0 n (sgrrNode T seed (l + 1)))
        let output ← sgrrRefresh T n (overwrite outS 0 n (sgrrNode T seed (l + 1)))
        pure (output, blockBytes ((l + 1) * 2) (pairBlocks sums) ++ proof.pack)
      else .ok (overwrite outS 0 n (sgrrNode T seed (l + 1)),
        blockBytes ((l + 1) * 2) (pairBlocks sums)) := by
    intro mal
    rw [sgrrOtExtSendFixedIndexBuf, hlog, ok_bind, sgrrOtExtHelper_eq hlog, ok_bind,
      enforceThat_bind (hbase.size_eq ▸ hsize), enforceThat_bind h1,
      enforceThat_bind rfl, hsend]
    rfl
  rw [hsendBuf]
  cases mal with
  | false =>
    obtain ⟨g, hg, hrecv⟩ := sgrrOtExtRecvFixedIndexBuf_eq T h1 h31 hlog hlow hn hsize h128 seed hR
      false hidx hword (show ([] : List Bytes.Byte).length = _ from rfl)
    simp only [Bool.false_eq_true, if_false, List.append_nil] at hrecv ⊢
    refine ⟨_, _, _, rfl, ?_, hrecv, puncturedAt_overwrite hS hR hg⟩
    rw [length_blockBytes]
    omega
  | true =>
    obtain ⟨g, hg, hrecv⟩ := sgrrOtExtRecvFixedIndexBuf_eq T h1 h31 hlog hlow hn hsize h128 seed hR
      true hidx hword (show (sgrrProof T n (sgrrNode T seed (l + 1))).pack.length = _ by
        rw [SgrrCheckMsg.pack]; rfl)
    rw [if_pos rfl, SgrrCheckMsg.unpack_pack, ok_bind, sgrrRecvCheck_eq T hR _ hidx
      fun i hi hne => by rw [hg i hi, if_neg hne]] at hrecv
    rw [genCheckMsg_eq T hS, sgrrRefresh_eq T hS]
    refine ⟨_, _, _, rfl, ?_, hrecv, puncturedAt_overwrite hS hR fun i hi => update_crHash T hg hi⟩
    rw [List.length_append, length_blockBytes, SgrrCheckMsg.pack]
    simp
    omega

/-- The two programs with the index that the choices of the transfers spell. -/
theorem sgrrOtExtFixedIndex_session :
    Session False (sgrrOtExtSendFixedIndex T seed s n outS mal)
      (sgrrOtExtRecvFixedIndex T r n outR mal)
      (PuncturedAt n (bitsOf (l + 1) r.choice).toNat) := by
  obtain ⟨a, b, buf, hsend, hlen, hrecv, hab⟩ :=
    sgrrOtExtFixedIndexBuf_eq T hbase h1 h31 hlog hlow hn hsize h128 seed hS hR mal hidx
  rw [sgrrOtExtSendFixedIndex, sgrrOtExtRecvFixedIndex, sgrrOtExtHelper_eq hlog]
  simp only [liftM_ok, Proc.pure_bind, hsend]
  refine .send_recv ?_
  simp only [enforceThat_of_pos hlen, hrecv]
  exact .ret hab

end FixedIndex

/-! ### More than `2 ^ 31` leaves -/

/-- **The lost level.** With more than `2 ^ 31` leaves and index one, the last step of the receiver
does not touch leaf `2 ^ 31`. -/
theorem sgrrRecvStep_last {base : OtRecvStore} (hn : 2 ^ 31 < n) {choice : DynamicBitset}
    (msgs : ℕ → Uint128 × Uint128) {out : List Uint128} (hout : n ≤ out.length)
    (hbase : 31 < base.size) (hsize : 31 < choice.size)
    (hc : ∀ j ≤ 31, choice.bit j = Nat.testBit 1 j) (a : ℕ → Uint128) :
    ∃ b, sgrrRecvStep T false base n choice msgs 31 (overwrite out 0 (2 ^ 31) a) = .ok b ∧
      b[2 ^ 31]? = out[2 ^ 31]? := by
  obtain ⟨p, hp, hpn⟩ := getPuncturedIndex_eq (by omega) hc
  obtain ⟨q, hq, hqn⟩ := getInsertedIndex_eq (by omega) hc
  have hqn' : q.toNat = 2 ^ 31 + 1 := hqn.trans (by decide)
  obtain ⟨splits, -, hlevel⟩ := sgrrLevel_eq T (fun j => decide (j = p.toNat ∨ j = q.toNat))
    (fun v left right => v ^^^ if Nat.testBit 1 31 then left else right) (sgrrWord base 1 msgs 31)
    (by omega) hn.le hout a
  rw [Nat.mod_self, Nat.zero_min, overwrite_zero] at hlevel
  have hrest : ((overwrite out 0 (2 ^ 31) a).set p.toNat 0)[2 ^ 31]? = out[2 ^ 31]? := by
    rw [List.getElem?_set_ne (by omega), getElem?_overwrite_of_notMem (by omega)]
  rw [sgrrRecvStep, hp, ok_bind, hq, ok_bind, DynamicBitset.test_of_lt hsize, ok_bind,
    OtRecvStore.getBlock_eq hbase, ok_bind, hc 31 le_rfl]
  dsimp only
  rw [← sgrrWord, sgrrRecvLevel, if_pos (by omega), hlevel, ok_bind]
  rw [vecSetIf, if_pos (.inl rfl), vecSet_of_lt (by rw [length_overwrite]; omega), ok_bind,
    vecSetIf]
  split
  · refine ⟨_, vecSet_of_lt (by rw [List.length_set, length_overwrite]; omega) _, ?_⟩
    rw [List.getElem?_set_ne (by omega), hrest]
  · exact ⟨_, rfl, hrest⟩

/-- The two programs with index one and more than `2 ^ 31` leaves: neither writes leaf `2 ^ 31`. -/
theorem sgrrOtExt_session_lost {r : OtRecvStore} {s : OtSendStore} (hbase : BaseOts r s)
    (hn : 2 ^ 31 < n) (h32 : n < 2 ^ 32) (hlog : log2Ceil n = .ok 32) (hsize : 32 ≤ r.size)
    (h128 : r.size ≤ 128) (seed : Uint128) {outS outR : List Uint128} (hS : n ≤ outS.length)
    (hR : n ≤ outR.length) :
    Session False (sgrrOtExtSend T seed s n outS false) (sgrrOtExtRecv T r n 1 outR false)
      fun a b => a[2 ^ 31]? = outS[2 ^ 31]? ∧ b[2 ^ 31]? = outR[2 ^ 31]? := by
  obtain ⟨sums, hsend, -⟩ := sgrrSendTree_eq T hn h32 hS
    (fun _ => pure (0, 0)) (fun _ => (0, 0)) (fun _ _ => rfl) seed
  rw [Nat.min_eq_right (show 31 ≤ 31 + 1 by omega)] at hsend
  refine sgrrOtExt_session_of_trees T hbase (by omega) h32 hlog hn hsize h128 seed false hsend
    (by omega) fun choice msgs hcsize hcbits _ => ?_
  have htree := sgrrRecvTree_eq T (by omega) hn hR hsize hcsize.ge hcbits false msgs
    (by omega) le_rfl
  rw [sgrrState, Nat.min_eq_left hn.le] at htree
  obtain ⟨b, hlast, hb⟩ := sgrrRecvStep_last T hn msgs hR (show 31 < r.size by omega)
    (by omega) (fun j hj => hcbits j (by omega))
    (punctured (sgrrLeft T) (sgrrRight T) (sgrrWord r 1 msgs) 1 31)
  refine ⟨b, ?_, .ret ⟨getElem?_overwrite_of_notMem (by omega), hb⟩⟩
  rw [sgrrRecvTree] at htree ⊢
  rw [forLoop_succ, htree]
  exact hlast

/-! ### Correctness -/

/-- **Correctness of the protocol** for `n` leaves: over correct transfers, one for each level at
least, both parties complete in every interleaving, and the receiver has the sender's leaves except
for the one at its index, or at the index that the choices of the transfers spell. -/
def SgrrOtExtCorrect (n : ℕ) : Prop :=
  ∀ ⦃r s⦄, BaseOts r s → ∀ ⦃otNum⦄, log2Ceil n = .ok otNum → otNum ≤ r.size → r.size ≤ 128 →
    ∀ ⦃outS outR : List Uint128⦄, n ≤ outS.length → n ≤ outR.length → ∀ seed mal,
      (∀ index < n, Completes (sgrrOtExtSend T seed s n outS mal)
        (sgrrOtExtRecv T r n index outR mal) (PuncturedAt n index)) ∧
      ((bitsOf otNum r.choice).toNat < n → Completes (sgrrOtExtSendFixedIndex T seed s n outS mal)
        (sgrrOtExtRecvFixedIndex T r n outR mal) (PuncturedAt n (bitsOf otNum r.choice).toNat))

theorem exists_baseOts {num : ℕ} (hpos : 0 < num) (hlt : num * 2 < 2 ^ 64) :
    ∃ r s, BaseOts r s ∧ r.size = num := by
  obtain ⟨s, r, -, hbase, hsize, -⟩ := mockRots_baseOts (List.replicate num (0, 0)) (.ofSize num)
    (by simp) (by simpa using hpos) (by simpa using hlt)
  exact ⟨r, s, hbase, by simpa using hsize⟩

theorem not_sgrrOtExtCorrect_of_lt (hlarge : 2 ^ 31 < n) (h32 : n < 2 ^ 32) :
    ¬SgrrOtExtCorrect T n := by
  intro h
  obtain ⟨l, hlog, hlow, hn⟩ := log2Ceil_spec (show 1 < n by omega)
  obtain rfl : l = 31 := by
    have hlt : 31 < l + 1 := (Nat.pow_lt_pow_iff_right (by omega)).mp (hlarge.trans_le hn)
    have hlt' : l < 32 := (Nat.pow_lt_pow_iff_right (by omega)).mp (hlow.trans h32)
    omega
  obtain ⟨r, s, hbase, hsize⟩ := exists_baseOts (show 0 < 32 by omega) (by omega)
  obtain ⟨hcorrect, -⟩ := h hbase hlog hsize.ge (by omega)
    (show n ≤ (List.replicate n (0 : Uint128)).length by simp)
    (show n ≤ (List.replicate n (1 : Uint128)).length by simp) 0 false
  obtain ⟨a, b, hab, ha, hb⟩ := (hcorrect 1 (by omega)).exists_of_session
    (sgrrOtExt_session_lost T hbase hlarge h32 hlog hsize.ge (by omega) 0 (by simp) (by simp))
  obtain ⟨x, hax, hbx⟩ := hab (2 ^ 31) hlarge
  rw [ha, List.getElem?_replicate_of_lt hlarge] at hax
  rw [hb, List.getElem?_replicate_of_lt hlarge, if_neg (by omega), ← hax] at hbx
  exact absurd hbx (by decide)

/-- **SGRR (n-1)-out-of-n OT** is correct for `n` leaves if and only if there are at most `2 ^ 31`:
with more leaves the number of nodes on the last level is zero in `uint32_t`. -/
theorem sgrrOtExtCorrect_iff {n : ℕ} (h1 : 1 < n) (h32 : n < 2 ^ 32) :
    SgrrOtExtCorrect T n ↔ n ≤ 2 ^ 31 := by
  constructor
  · intro h
    by_contra hlarge
    exact not_sgrrOtExtCorrect_of_lt T (Nat.not_le.mp hlarge) h32 h
  · intro h31 r s hbase otNum hot hsize h128 outS outR hS hR seed mal
    obtain ⟨l, hlog, hlow, hn⟩ := log2Ceil_spec h1
    obtain rfl : otNum = l + 1 := Except.ok.inj (hot.symm.trans hlog)
    refine ⟨fun index hindex => Session.completes ?_, fun hindex => Session.completes ?_⟩
    · exact sgrrOtExt_session T hbase h1 h32 hlog hlow hsize h128 seed mal h31 hn hS hR hindex
    · exact sgrrOtExtFixedIndex_session T hbase h1 h31 hlog hlow hn hsize h128 seed hS hR mal hindex

/-- Trees of five leaves. -/
theorem sgrrOtExtCorrect_five : (1 < 5 ∧ 5 < 2 ^ 32) ∧ SgrrOtExtCorrect default 5 :=
  ⟨by decide, (sgrrOtExtCorrect_iff default (by decide) (by decide)).mpr (by decide)⟩

/-- With `2 ^ 31 + 1` leaves, leaf `2 ^ 31` is never written. -/
theorem not_sgrrOtExtCorrect_large : ¬SgrrOtExtCorrect default (2 ^ 31 + 1) :=
  not_sgrrOtExtCorrect_of_lt default (by decide) (by decide)

end Yacl.Crypto
