import Yacl.Crypto.CcrHash
import Yacl.Kernel.OtStoreUtils
import Yacl.Lib.PuncturedTree
import Yacl.Math.Gadget

/-!
# GYWZ single-point COT

The model of `yacl/kernel/algorithms/gywz_ote.cc`. The sender grows a half tree from its seed and
`delta` (`CggmFullEval`) and sends, masked by correlated transfers, the sum of the left children of
every level. The receiver learns each sum or that sum plus `delta`, and grows the punctured half
tree from them (`CggmPuncFullEval`). The trees are grown in place in the output; for a number of
leaves that is not a power of two, the right half of the last level goes to an extra buffer first,
of which only a part is copied.

Both parties fill the first `n` entries of their outputs with the leaves of their trees
(`cggmFullEval_eq`, `cggmPuncFullEval_eq`), so that the outputs differ by `delta` at the index and
nowhere else (`gywzOtExt_completes`).
-/

open Bits Loop TwoParty Proc PuncturedTree XorSum Yacl.Math

namespace Yacl.Crypto

variable (T : Tools)

/-! ### Growing the trees -/

/-- The part of a level that both evaluations share: the seeds are copied to the right side, the
left side is hashed, and the loop adds the left side to the right side and to a sum. -/
def cggmSplit (one : Uint128) (prevSize : ℕ) (seeds : ℕ → Uint128) (leftSideSum : Uint128) :
    (ℕ → Uint128) × (ℕ → Uint128) × Uint128 :=
  iterLoop prevSize (fun i s =>
    let x := s.1 i &&& one
    (Function.update s.1 i x, Function.update s.2.1 i (s.2.1 i ^^^ x), s.2.2 ^^^ x))
    (ccrHashArray T prevSize seeds, seeds, leftSideSum)

/-- The two sides of a level and the sum; the children of node `puncturedIdx`, if there is one, are
corrected by the sum. -/
def cggmChildren (one : Uint128) (prevSize : ℕ) (seeds : ℕ → Uint128) (leftSideSum : Uint128)
    (puncturedIdx : Option ℕ) : (ℕ → Uint128) × (ℕ → Uint128) × Uint128 :=
  let (left, right, sum) := cggmSplit T one prevSize seeds leftSideSum
  match puncturedIdx with
  | none => (left, right, sum)
  | some p =>
    (Function.update left p (left p ^^^ sum), Function.update right p (right p ^^^ sum), sum)

/-- The buffers of an evaluation, and `prev_size`. -/
structure CggmState where
  workingSeeds : List Uint128
  extraBuff : ℕ → Uint128
  prevSize : ℕ

/-- One level of either evaluation, with the initial value of the sum. The result also has the
sum. -/
def cggmLevel (one : Uint128) (twoPower : Bool) (height level : ℕ) (leftSideSum : Uint128)
    (puncturedIdx : Option ℕ) (st : CggmState) : Except Exception (CggmState × Uint128) := do
  let prevSize := st.prevSize * 2 % 2 ^ 32
  let seeds ← readSpan st.workingSeeds 0 prevSize 0
  let children := cggmChildren T one prevSize seeds leftSideSum puncturedIdx
  let workingSeeds ← writeSpan st.workingSeeds 0 prevSize children.1
  if twoPower = false ∧ level = height - 1 then
    pure (⟨workingSeeds, children.2.1, prevSize⟩, children.2.2)
  else
    let workingSeeds ← writeSpan workingSeeds prevSize prevSize children.2.1
    pure (⟨workingSeeds, st.extraBuff, prevSize⟩, children.2.2)

/-- The end of an evaluation: the leaves in the extra buffer are copied. -/
def cggmCopy (twoPower : Bool) (n : ℕ) (st : CggmState) : Except Exception (List Uint128) :=
  if twoPower then pure st.workingSeeds
  else writeSpan st.workingSeeds st.prevSize (n - st.prevSize) st.extraBuff

/-- `n == (static_cast<uint32_t>(1) << height)`. -/
def isTwoPower (n height : ℕ) : Bool := n = (shl32 1 height).toNat

/-- The body of the loop of `CggmFullEval`. -/
def cggmFullStep (one : Uint128) (twoPower : Bool) (height level : ℕ)
    (s : CggmState × (ℕ → Uint128)) : Except Exception (CggmState × (ℕ → Uint128)) := do
  let (st, sum) ← cggmLevel T one twoPower height level 0 none s.1
  pure (st, Function.update s.2 level sum)

/-- `CggmFullEval`; the results are `all_msgs` and `left_sums` after the call, the latter of the
size `leftSumsSize`. -/
def cggmFullEval (delta seed : Uint128) (n : ℕ) (allMsgs : List Uint128) (leftSumsSize : ℕ)
    (one : Uint128) : Except Exception (List Uint128 × (ℕ → Uint128)) := do
  let height ← log2Ceil n
  enforce (height = leftSumsSize) "height == left_sums.size()" ""
  enforce (n ≤ allMsgs.length) "all_msgs.size() >= n" ""
  let twoPower := isTwoPower n height
  let seed := seed &&& one
  let delta := delta &&& one
  let workingSeeds ← vecSet allMsgs 0 seed
  let workingSeeds ← vecSet workingSeeds 1 (seed ^^^ delta)
  let s ← forLoop (height - 1) (fun t s => cggmFullStep T one twoPower height (t + 1) s)
    (⟨workingSeeds, fun _ => 0, 1⟩, Function.update (fun _ => 0) 0 seed)
  let allMsgs ← cggmCopy twoPower n s.1
  pure (allMsgs, s.2)

/-- The body of the loop of `CggmPuncFullEval`, with the state and `punctured_idx`. -/
def cggmPuncStep (one : Uint128) (twoPower : Bool) (height : ℕ) (siblingSums : ℕ → Uint128)
    (index level : ℕ) (s : CggmState × ℕ) : Except Exception (CggmState × ℕ) := do
  let (st, _) ← cggmLevel T one twoPower height level (siblingSums level) (some s.2) s.1
  pure (st, s.2 ||| (index &&& st.prevSize))

/-- `CggmPuncFullEval`, with the `height` entries of `sibling_sums`; the result is
`punctured_msgs` after the call. -/
def cggmPuncFullEval (index height : ℕ) (siblingSums : ℕ → Uint128) (n : ℕ)
    (puncturedMsgs : List Uint128) (one : Uint128) : Except Exception (List Uint128) := do
  enforce (n ≤ puncturedMsgs.length) "punctured_msgs.size() >= n" ""
  let twoPower := isTwoPower n height
  let workingSeeds ← vecSet puncturedMsgs 0 (siblingSums 0 &&& one)
  let workingSeeds ← vecSet workingSeeds 1 (siblingSums 0 &&& one)
  let s ← forLoop (height - 1)
    (fun t s => cggmPuncStep T one twoPower height siblingSums index (t + 1) s)
    (⟨workingSeeds, fun _ => 0, 1⟩, index &&& 1)
  cggmCopy twoPower n s.1

/-! ### The two programs -/

/-- `sibling_sums[i] ^= cot.GetBlock(i)` for all levels, where `f` is what a caller does with the
blocks. -/
def xorRecvBlocks (f : Uint128 → Uint128) (cot : OtRecvStore) (height : ℕ)
    (sums : ℕ → Uint128) : Except Exception (ℕ → Uint128) :=
  forLoop height (fun i sums => do
    let b ← cot.getBlock i
    pure (Function.update sums i (sums i ^^^ f b))) sums

/-- `left_sums[i] ^= cot.GetBlock(i, msg_idx)` for all levels. -/
def xorSendBlocks (f : Uint128 → Uint128) (cot : OtSendStore) (height : ℕ) (msgIdx : ℕ → ℕ)
    (sums : ℕ → Uint128) : Except Exception (ℕ → Uint128) :=
  forLoop height (fun i sums => do
    let b ← cot.getBlock i (msgIdx i)
    pure (Function.update sums i (sums i ^^^ f b))) sums

/-- The index whose bits are the choices of the transfers. -/
def choicesToIndex (cot : OtRecvStore) (height : ℕ) : Except Exception (BitVec 32) :=
  forLoop height (fun i index => do
    let c ← cot.getChoice i
    pure (index ||| shl32 (if c then 1 else 0) i)) 0

/-- `GywzOtExtRecv`; the result is `output` after the call. -/
def gywzOtExtRecv (cot : OtRecvStore) (n index : ℕ) (output : List Uint128) :
    Party (List Uint128) := do
  let height ← log2Ceil n
  enforce (cot.size = height) "cot.Size() == height" ""
  enforceThat (n > 1) "n > (uint32_t)1" n 1
  enforceThat (n > index) "n > index" n index
  let choice := ((DynamicBitset.ofSize 0).append (BitVec.ofNat 128 index)).resize height
  let maskedChoice ← maskChoice cot height choice
  enforce (maskedChoice.blocks.length = 1) "masked_choice.num_blocks() == 1" ""
  sendAsync (bitsetBytes maskedChoice)
  let recvBuf ← recv
  let siblingSums ← memcpyBlocks height recvBuf
  let siblingSums ← xorRecvBlocks id cot height siblingSums
  cggmPuncFullEval T index height siblingSums n output (.allOnes 128)

/-- `GywzOtExtSend`, with the seed that it draws; the result is `output` after the call. -/
def gywzOtExtSend (seed : Uint128) (cot : OtSendStore) (n : ℕ) (output : List Uint128) :
    Party (List Uint128) := do
  let height ← log2Ceil n
  enforce (cot.size = height) "cot.Size() == height" ""
  enforceThat (n > 1) "n > (uint32_t)1" n 1
  let delta ← cot.getDelta
  let (output, leftSums) ← cggmFullEval T delta seed n output height (.allOnes 128)
  let recvBuf ← recv
  let maskedChoice ← memcpyBits height recvBuf
  let leftSums ← xorSendBlocks id cot height (fun i => 1 - (maskedChoice i).toNat) leftSums
  sendAsync (blockBytes height leftSums)
  pure output

/-- `GywzOtExtRecv_fixed_index` with the messages of the sender. -/
def gywzOtExtRecvFixedIndexMsgs (cot : OtRecvStore) (n : ℕ) (output : List Uint128)
    (recvMsgsSize : ℕ) (recvMsgs : ℕ → Uint128) : Except Exception (List Uint128) := do
  let height ← log2Ceil n
  enforce (cot.size = height) "cot.Size() == height" ""
  enforceThat (n > 1) "n > (uint32_t)1" n 1
  enforce (recvMsgsSize ≥ height) "recv_msgs.size() >= height" ""
  let index ← choicesToIndex cot height
  let siblingSums ← xorRecvBlocks id cot height recvMsgs
  cggmPuncFullEval T index.toNat height siblingSums n output (.allOnes 128)

/-- `GywzOtExtSend_fixed_index` with a span of the given size for the messages; the results are
`output` and the messages. -/
def gywzOtExtSendFixedIndexMsgs (seed : Uint128) (cot : OtSendStore) (n : ℕ)
    (output : List Uint128) (sendMsgsSize : ℕ) :
    Except Exception (List Uint128 × (ℕ → Uint128)) := do
  let height ← log2Ceil n
  enforce (cot.size = height) "cot.Size() == height" ""
  enforceThat (n > 1) "n > (uint32_t)1" n 1
  enforce (sendMsgsSize ≥ height) "send_msgs.size() >= height" ""
  let delta ← cot.getDelta
  let (output, sendMsgs) ← cggmFullEval T delta seed n output sendMsgsSize (.allOnes 128)
  let sendMsgs ← xorSendBlocks id cot height (fun _ => 1) sendMsgs
  pure (output, sendMsgs)

/-- `GywzOtExtRecv_fixed_index`. -/
def gywzOtExtRecvFixedIndex (cot : OtRecvStore) (n : ℕ) (output : List Uint128) :
    Party (List Uint128) := do
  let height ← log2Ceil n
  enforce (cot.size = height) "cot.Size() == height" ""
  enforceThat (n > 1) "n > (uint32_t)1" n 1
  let recvBuf ← recv
  enforce (recvBuf.length ≥ height * 16)
    "recv_buf.size() >= static_cast<int64_t>(height * sizeof(uint128_t))" ""
  gywzOtExtRecvFixedIndexMsgs T cot n output height (Bytes.wordAt 16 recvBuf)

/-- `GywzOtExtSend_fixed_index`. -/
def gywzOtExtSendFixedIndex (seed : Uint128) (cot : OtSendStore) (n : ℕ) (output : List Uint128) :
    Party (List Uint128) := do
  let height ← log2Ceil n
  enforce (cot.size = height) "cot.Size() == height" ""
  enforceThat (n > 1) "n > (uint32_t)1" n 1
  let (output, leftSums) ← gywzOtExtSendFixedIndexMsgs T seed cot n output height
  sendAsync (blockBytes height leftSums)
  pure output

/-- The mask of the ferret variants, which clears the low bit. -/
def ferretOne : Uint128 := makeUint128 0xffffffffffffffff 0xfffffffffffffffe

/-- `GywzOtExtRecv_ferret`. -/
def gywzOtExtRecvFerret (cot : OtRecvStore) (n : ℕ) (output : List Uint128) :
    Party (List Uint128) := do
  let height ← log2Ceil n
  enforce (cot.size = height) "cot.Size() == height" ""
  enforceThat (n > 1) "n > (uint32_t)1" n 1
  enforce (cot.type = .compact) "cot.Type() == OtStoreType::Compact" ""
  let index ← choicesToIndex cot height
  let recvBuf ← recv
  let siblingSums ← memcpyBlocks height recvBuf
  let siblingSums ← xorRecvBlocks (· &&& ferretOne) cot height siblingSums
  let output ← cggmPuncFullEval T index.toNat height siblingSums n output ferretOne
  if n > index.toNat then
    vecSet output index.toNat ((← vecGet output index.toNat) ||| ~~~ferretOne)
  else pure output

/-- `GywzOtExtSend_ferret`. -/
def gywzOtExtSendFerret (seed : Uint128) (cot : OtSendStore) (n : ℕ) (output : List Uint128) :
    Party (List Uint128) := do
  let height ← log2Ceil n
  enforce (cot.size = height) "cot.Size() == height" ""
  enforceThat (n > 1) "n > (uint32_t)1" n 1
  enforce (cot.type = .compact) "cot.Type() == OtStoreType::Compact" ""
  let delta ← cot.getDelta
  let delta := delta &&& ferretOne
  let seed := seed &&& ferretOne
  let (output, leftSums) ← cggmFullEval T delta seed n output height ferretOne
  let leftSums ← xorSendBlocks (· &&& ferretOne) cot height (fun _ => 1) leftSums
  sendAsync (blockBytes height leftSums)
  pure output

/-! ### One level -/

/-- The left child of a node. -/
def cggmLeft (one x : Uint128) : Uint128 := spanCcrHash T x &&& one

/-- The sum after a level. -/
def cggmSum (one leftSideSum : Uint128) (m : ℕ) (a : ℕ → Uint128) : Uint128 :=
  leftSideSum ^^^ xorSum m fun i => cggmLeft T one (a i)

/-- The nodes of the next level. -/
def cggmNext (one leftSideSum : Uint128) (puncturedIdx : Option ℕ) (m : ℕ) (a : ℕ → Uint128)
    (i : ℕ) : Uint128 :=
  halfDouble (cggmLeft T one) m a i ^^^
    match puncturedIdx with
    | none => 0
    | some p => if i % m = p then cggmSum T one leftSideSum m a else 0

theorem cggmSplit_eq (one : Uint128) (m : ℕ) (a : ℕ → Uint128) (leftSideSum : Uint128) :
    (∀ i < m, (cggmSplit T one m a leftSideSum).1 i = cggmLeft T one (a i)) ∧
      (∀ i < m, (cggmSplit T one m a leftSideSum).2.1 i = a i ^^^ cggmLeft T one (a i)) ∧
      (cggmSplit T one m a leftSideSum).2.2 = cggmSum T one leftSideSum m a := by
  -- the entries before `k` have been visited
  have h : cggmSplit T one m a leftSideSum =
      (fun i => if i < m then cggmLeft T one (a i) else ccrHashArray T m a i,
        fun i => if i < m then a i ^^^ cggmLeft T one (a i) else a i,
        cggmSum T one leftSideSum m a) := by
    refine iterLoop_inv (fun k s => s =
      (fun i => if i < k then cggmLeft T one (a i) else ccrHashArray T m a i,
        fun i => if i < k then a i ^^^ cggmLeft T one (a i) else a i,
        cggmSum T one leftSideSum k a)) (by simp [cggmSum]) ?_
    rintro k hk _ rfl
    have hleft : ccrHashArray T m a k &&& one = cggmLeft T one (a k) := by
      rw [ccrHashArray_eq T hk, cggmLeft]
    dsimp only
    rw [if_neg (lt_irrefl k), if_neg (lt_irrefl k), hleft,
      update_ite_lt fun i => cggmLeft T one (a i),
      update_ite_lt fun i => a i ^^^ cggmLeft T one (a i), cggmSum, cggmSum, xorSum_succ,
      BitVec.xor_assoc]
  rw [h]
  exact ⟨fun i hi => if_pos hi, fun i hi => if_pos hi, rfl⟩

theorem cggmChildren_eq (one : Uint128) (m : ℕ) (a : ℕ → Uint128) (leftSideSum : Uint128)
    {puncturedIdx : Option ℕ} (hp : ∀ p, puncturedIdx = some p → p < m) :
    let children := cggmChildren T one m a leftSideSum puncturedIdx
    (∀ i < m, children.1 i = cggmNext T one leftSideSum puncturedIdx m a i) ∧
      (∀ i < m, children.2.1 i = cggmNext T one leftSideSum puncturedIdx m a (m + i)) ∧
      children.2.2 = cggmSum T one leftSideSum m a := by
  obtain ⟨hleft, hright, hsum⟩ := cggmSplit_eq T one m a leftSideSum
  have hdouble : ∀ i < m, halfDouble (cggmLeft T one) m a i = cggmLeft T one (a i) ∧
      halfDouble (cggmLeft T one) m a (m + i) = a i ^^^ cggmLeft T one (a i) := by
    intro i hi
    rw [halfDouble, double, double, if_pos hi, if_neg (by omega), Nat.add_sub_cancel_left]
    exact ⟨rfl, rfl⟩
  cases puncturedIdx with
  | none =>
    refine ⟨fun i hi => ?_, fun i hi => ?_, hsum⟩
    · simpa [cggmChildren, cggmNext, (hdouble i hi).1] using hleft i hi
    · simpa [cggmChildren, cggmNext, (hdouble i hi).2] using hright i hi
  | some p =>
    refine ⟨fun i hi => ?_, fun i hi => ?_, hsum⟩
    · rw [cggmNext, (hdouble i hi).1, Nat.mod_eq_of_lt hi, ← hsum, ← hleft i hi]
      rcases eq_or_ne i p with rfl | hne
      · simp [cggmChildren]
      · simp [cggmChildren, hne]
    · rw [cggmNext, (hdouble i hi).2, Nat.add_mod_left, Nat.mod_eq_of_lt hi, ← hsum, ← hright i hi]
      rcases eq_or_ne i p with rfl | hne
      · simp [cggmChildren]
      · simp [cggmChildren, hne]

section Level

variable (one leftSideSum : Uint128) {puncturedIdx : Option ℕ} {st : CggmState}
  {out : List Uint128} {m : ℕ} {a : ℕ → Uint128}

theorem cggmSum_congr {b : ℕ → Uint128} (h : ∀ i < m, b i = a i) :
    cggmSum T one leftSideSum m b = cggmSum T one leftSideSum m a := by
  rw [cggmSum, cggmSum, xorSum_congr fun i hi => by rw [h i hi]]

theorem cggmNext_congr {b : ℕ → Uint128} (h : ∀ i < m, b i = a i) {i : ℕ} (hi : i < 2 * m) :
    cggmNext T one leftSideSum puncturedIdx m b i =
      cggmNext T one leftSideSum puncturedIdx m a i := by
  have hdouble : halfDouble (cggmLeft T one) m b i = halfDouble (cggmLeft T one) m a i := by
    rw [halfDouble, double, halfDouble, double]
    split
    · next hlt => rw [h i hlt]
    · next hge => rw [h (i - m) (by omega)]
  unfold cggmNext
  rw [hdouble, cggmSum_congr T one leftSideSum h]

theorem cggmLevel_eq (hprev : st.prevSize * 2 = m) (hm : m < 2 ^ 32) (hout : m ≤ out.length)
    (hws : st.workingSeeds = overwrite out 0 m a) (hp : ∀ p, puncturedIdx = some p → p < m)
    (twoPower : Bool) (height level : ℕ) :
    ∃ left right, (∀ i < m, left i = cggmNext T one leftSideSum puncturedIdx m a i) ∧
      (∀ i < m, right i = cggmNext T one leftSideSum puncturedIdx m a (m + i)) ∧
      cggmLevel T one twoPower height level leftSideSum puncturedIdx st =
        if twoPower = false ∧ level = height - 1 then
          .ok (⟨overwrite out 0 m left, right, m⟩, cggmSum T one leftSideSum m a)
        else
          (writeSpan (overwrite out 0 m left) m m right >>= fun workingSeeds =>
            .ok (⟨workingSeeds, st.extraBuff, m⟩, cggmSum T one leftSideSum m a)) := by
  obtain ⟨b, hread, hb⟩ := readSpan_overwrite hout a 0
  obtain ⟨hleft, hright, hsum⟩ := cggmChildren_eq T one m b leftSideSum hp
  refine ⟨(cggmChildren T one m b leftSideSum puncturedIdx).1,
    (cggmChildren T one m b leftSideSum puncturedIdx).2.1,
    fun i hi => (hleft i hi).trans (cggmNext_congr T one leftSideSum hb (by omega)),
    fun i hi => (hright i hi).trans (cggmNext_congr T one leftSideSum hb (by omega)), ?_⟩
  rw [cggmLevel, hprev, Nat.mod_eq_of_lt hm, hws, hread, ok_bind]
  dsimp only
  rw [writeSpan_eq (by rw [length_overwrite]; omega), overwrite_overwrite le_rfl, hsum,
    cggmSum_congr T one leftSideSum hb]
  rfl

theorem overwrite_sides {left right next : ℕ → Uint128} {n : ℕ} (hleft : ∀ i < m, left i = next i)
    (hright : ∀ i < m, right i = next (m + i)) (hn : n ≤ m) :
    overwrite (overwrite out 0 m left) m n right = overwrite out 0 (m + n) next := by
  rw [overwrite_append]
  refine overwrite_congr fun i hi => ?_
  split
  · next hlt => exact hleft i hlt
  · next hge => rw [hright (i - m) (by omega), Nat.add_sub_cancel' (by omega)]

/-- **A level in place.** -/
theorem cggmLevel_inPlace (hprev : st.prevSize * 2 = m) (hm : m < 2 ^ 32)
    (hout : 2 * m ≤ out.length) (hws : st.workingSeeds = overwrite out 0 m a)
    (hp : ∀ p, puncturedIdx = some p → p < m) (twoPower : Bool) (height level : ℕ)
    (hplace : ¬(twoPower = false ∧ level = height - 1)) :
    ∃ st', cggmLevel T one twoPower height level leftSideSum puncturedIdx st =
        .ok (st', cggmSum T one leftSideSum m a) ∧
      st'.prevSize = m ∧
      st'.workingSeeds = overwrite out 0 (2 * m) (cggmNext T one leftSideSum puncturedIdx m a) := by
  obtain ⟨left, right, hleft, hright, hlevel⟩ :=
    cggmLevel_eq T one leftSideSum hprev hm (by omega) hws hp twoPower height level
  rw [if_neg hplace, writeSpan_eq (by rw [length_overwrite]; omega)] at hlevel
  refine ⟨_, hlevel, rfl, ?_⟩
  rw [Nat.two_mul]
  exact overwrite_sides hleft hright le_rfl

/-- **The last level**, of which `n` leaves are kept. -/
theorem cggmLevel_last (hprev : st.prevSize * 2 = m) (hm : m < 2 ^ 32)
    (hws : st.workingSeeds = overwrite out 0 m a) (hp : ∀ p, puncturedIdx = some p → p < m) {n : ℕ}
    (hmn : m < n) (hn : n ≤ 2 * m) (hout : n ≤ out.length) (height : ℕ) :
    ∃ st', cggmLevel T one (decide (n = 2 * m)) height (height - 1) leftSideSum puncturedIdx st =
        .ok (st', cggmSum T one leftSideSum m a) ∧
      st'.prevSize = m ∧ cggmCopy (decide (n = 2 * m)) n st' =
        .ok (overwrite out 0 n (cggmNext T one leftSideSum puncturedIdx m a)) := by
  by_cases htwo : n = 2 * m
  · obtain ⟨st', hlevel, hprev', hws'⟩ := cggmLevel_inPlace T one leftSideSum hprev hm (by omega)
      hws hp (decide (n = 2 * m)) height (height - 1) (by simp [htwo])
    refine ⟨st', hlevel, hprev', ?_⟩
    rw [cggmCopy, if_pos (decide_eq_true htwo), hws', htwo]
    rfl
  · obtain ⟨left, right, hleft, hright, hlevel⟩ :=
      cggmLevel_eq T one leftSideSum hprev hm (by omega) hws hp (decide (n = 2 * m)) height
        (height - 1)
    rw [if_pos ⟨decide_eq_false htwo, rfl⟩] at hlevel
    refine ⟨_, hlevel, rfl, ?_⟩
    rw [cggmCopy, if_neg (by simp [htwo])]
    dsimp only
    rw [writeSpan_eq (by rw [length_overwrite]; omega), overwrite_sides hleft hright (by omega),
      Nat.add_sub_cancel' (by omega)]

end Level

/-! ### Whole trees -/

variable {n l : ℕ} {out : List Uint128}

/-- The loop of either evaluation. The array of level `t + 1` is `A t`, and `Q t` is what is known
of the rest of the state before that level is doubled. -/
theorem cggmLoop_eq (one : Uint128) {σ : Type}
    (step : ℕ → CggmState × σ → Except Exception (CggmState × σ)) (Q : ℕ → σ → Prop)
    (A : ℕ → ℕ → Uint128) (leftSideSum : ℕ → Uint128) (puncturedIdx : ℕ → Option ℕ)
    (hA : ∀ t, A (t + 1) = cggmNext T one (leftSideSum t) (puncturedIdx t) (2 ^ (t + 1)) (A t))
    (hp : ∀ t p, puncturedIdx t = some p → p < 2 ^ (t + 1))
    (hstep : ∀ t st st' x, Q t x → cggmLevel T one (decide (n = 2 ^ (l + 1))) (l + 1) (t + 1)
        (leftSideSum t) (puncturedIdx t) st =
          .ok (st', cggmSum T one (leftSideSum t) (2 ^ (t + 1)) (A t)) →
      st'.prevSize = 2 ^ (t + 1) → ∃ x', step t (st, x) = .ok (st', x') ∧ Q (t + 1) x')
    (hlow : 2 ^ l < n) (hn : n ≤ 2 ^ (l + 1)) (h32 : n < 2 ^ 32) (hout : n ≤ out.length) {x : σ}
    (hQ : Q 0 x) :
    ∃ st' x', forLoop l step (⟨overwrite out 0 2 (A 0), fun _ => 0, 1⟩, x) = .ok (st', x') ∧
      Q l x' ∧ cggmCopy (decide (n = 2 ^ (l + 1))) n st' = .ok (overwrite out 0 n (A l)) := by
  cases l with
  | zero =>
    refine ⟨_, x, rfl, hQ, ?_⟩
    rw [cggmCopy, show n = 2 by omega]
    rfl
  | succ k =>
    have hpow : 2 ^ (k + 1 + 1) = 2 * 2 ^ (k + 1) := Nat.pow_succ'
    -- the levels before the last one are doubled in place
    obtain ⟨⟨st1, x1⟩, hloop, hprev1, hws1, hQ1⟩ := forLoop_ok (n := k) (f := step)
      (s := (⟨overwrite out 0 2 (A 0), fun _ => 0, 1⟩, x)) (fun t s => s.1.prevSize = 2 ^ t ∧
        s.1.workingSeeds = overwrite out 0 (2 ^ (t + 1)) (A t) ∧ Q t s.2) ⟨rfl, rfl, hQ⟩ <| by
      rintro t ht ⟨st', x'⟩ ⟨hprev', hws', hQ'⟩
      have hle : 2 ^ (t + 1 + 1) ≤ 2 ^ (k + 1) := Nat.pow_le_pow_right (by omega) (by omega)
      obtain ⟨st2, hlevel, hprev2, hws2⟩ := cggmLevel_inPlace T one (leftSideSum t)
        (by rw [hprev',
          Nat.pow_succ]) (by omega) (by omega) hws'
        (hp t) (decide (n = 2 ^ (k + 1 + 1))) (k + 1 + 1) (t + 1) (by omega)
      obtain ⟨x2, hx2, hQ2⟩ := hstep t st' st2 x' hQ' hlevel hprev2
      exact ⟨_, hx2, hprev2, by rw [hws2, hA, Nat.pow_succ' (n := t + 1)], hQ2⟩
    obtain ⟨st2, hlevel, hprev2, hcopy⟩ := cggmLevel_last T one (leftSideSum k)
      (by rw [hprev1, Nat.pow_succ]) (by omega) hws1 (hp k) hlow
      (by omega) hout (k + 1 + 1)
    rw [← hpow] at hlevel hcopy
    obtain ⟨x2, hx2, hQ2⟩ := hstep k st1 st2 x1 hQ1 hlevel hprev2
    refine ⟨st2, x2, by rw [forLoop_succ, hloop]; exact hx2, hQ2, ?_⟩
    rw [hcopy, hA]

theorem isTwoPower_eq (h1 : 1 < n) (h32 : n < 2 ^ 32) (hlow : 2 ^ l < n) :
    isTwoPower n (l + 1) = decide (n = 2 ^ (l + 1)) := by
  have hl : l < 32 := (Nat.pow_lt_pow_iff_right (by omega)).mp (hlow.trans h32)
  rw [isTwoPower]
  rcases Nat.lt_or_ge (l + 1) 32 with h | h
  · have hpow : 2 ^ (l + 1) < 2 ^ 32 := Nat.pow_lt_pow_right (by omega) h
    have hshift := toNat_shl32_of_lt (i := 1) h (by omega)
    rw [Nat.one_mul] at hshift
    rw [← hshift]
    rfl
  · obtain rfl : l = 31 := by omega
    rw [show (shl32 1 (31 + 1)).toNat = 1 by decide, decide_eq_false (by omega),
      decide_eq_false (by omega)]

theorem set_set_eq_overwrite (h : 2 ≤ out.length) (a : ℕ → Uint128) :
    (out.set 0 (a 0)).set 1 (a 1) = overwrite out 0 2 a := by
  refine List.ext_getElem? fun i => ?_
  rw [getElem?_overwrite, List.getElem?_set, List.getElem?_set, List.length_set]
  rcases (show i = 0 ∨ i = 1 ∨ 2 ≤ i by omega) with rfl | rfl | hi
  · rw [if_neg (by omega), if_pos rfl, if_pos (by omega), List.getElem?_eq_getElem (by omega)]
    rfl
  · rw [if_pos rfl, if_pos (by omega), List.getElem?_eq_getElem (by omega)]
    rfl
  · rw [if_neg (by omega), if_neg (by omega)]
    simp [show ¬i < 2 by omega]

section Eval

variable {n l : ℕ} (h1 : 1 < n) (hlow : 2 ^ l < n) (hn : n ≤ 2 ^ (l + 1)) (h32 : n < 2 ^ 32)
  {out : List Uint128} (hout : n ≤ out.length)

include h1 hlow hn h32 hout

/-- **`CggmFullEval`** fills the output with the leaves of the half tree, and finds the sums of the
left children. -/
theorem cggmFullEval_eq (hlog : log2Ceil n = .ok (l + 1)) (delta seed one : Uint128) :
    ∃ sums, cggmFullEval T delta seed n out (l + 1) one = .ok (overwrite out 0 n
        (halfNode (cggmLeft T one) (seed &&& one) (delta &&& one) l), sums) ∧
      ∀ j ≤ l, sums j = halfLeft (cggmLeft T one) (seed &&& one) (delta &&& one) j := by
  set node := halfNode (cggmLeft T one) (seed &&& one) (delta &&& one) with hnode
  set left := halfLeft (cggmLeft T one) (seed &&& one) (delta &&& one) with hleft
  obtain ⟨st, sums, hloop, hsums, hcopy⟩ := cggmLoop_eq T one
    (fun t s => cggmFullStep T one (decide (n = 2 ^ (l + 1))) (l + 1) (t + 1) s)
    (fun t sums => ∀ j ≤ t, sums j = left j) node (fun _ => 0) (fun _ => none)
    (fun t => by funext i; simp [cggmNext, hnode, halfNode]) (by simp)
    (fun t st st' sums hQ hlevel _ => by
      refine ⟨Function.update sums (t + 1) _, by rw [cggmFullStep, hlevel]; rfl, fun j hj => ?_⟩
      rcases Nat.lt_or_eq_of_le hj with hlt | rfl
      · rw [Function.update_of_ne (by omega), hQ j (by omega)]
      · rw [cggmSum, hleft, halfLeft]
        simp [hnode])
    hlow hn h32 hout (x := Function.update (fun _ => 0) 0 (seed &&& one))
    (fun j hj => by rw [Nat.le_zero.mp hj, Function.update_self, hleft, halfLeft])
  refine ⟨sums, ?_, hsums⟩
  rw [cggmFullEval, hlog, ok_bind, enforce_bind rfl, enforce_bind hout, isTwoPower_eq h1 h32 hlow]
  dsimp only
  rw [vecSet_of_lt (by omega), ok_bind, vecSet_of_lt (by rw [List.length_set]; omega), ok_bind]
  rw [← set_set_eq_overwrite (by omega)] at hloop
  have hfirst : node 0 0 = seed &&& one ∧ node 0 1 = (seed &&& one) ^^^ (delta &&& one) :=
    ⟨rfl, rfl⟩
  rw [hfirst.1, hfirst.2] at hloop
  rw [Nat.add_sub_cancel, hloop, ok_bind, hcopy]
  rfl

/-- **`CggmPuncFullEval`** fills the output with the leaves of the punctured half tree. -/
theorem cggmPuncFullEval_eq (index : ℕ) {one : Uint128} {v : ℕ → Uint128} (hv : v 0 &&& one = v 0) :
    cggmPuncFullEval T index (l + 1) v n out one =
      .ok (overwrite out 0 n (halfPunctured (cggmLeft T one) v index l)) := by
  set node := halfPunctured (cggmLeft T one) v index
  obtain ⟨st, idx, hloop, -, hcopy⟩ := cggmLoop_eq T one
    (fun t s => cggmPuncStep T one (decide (n = 2 ^ (l + 1))) (l + 1) v index (t + 1) s)
    (fun t idx => idx = index % 2 ^ (t + 1)) node (fun t => v (t + 1))
    (fun t => some (index % 2 ^ (t + 1))) (fun t => rfl)
    (fun t p hp => Option.some.inj hp ▸ Nat.mod_lt _ (Nat.two_pow_pos _))
    (fun t st st' idx hQ hlevel hprev => by
      refine ⟨idx ||| (index &&& 2 ^ (t + 1)), ?_, ?_⟩
      · rw [cggmPuncStep, hQ, hlevel, ← hprev]
        rfl
      · rw [hQ, mod_two_pow_or_and])
    hlow hn h32 hout (x := index % 2) rfl
  rw [cggmPuncFullEval, enforce_bind hout, isTwoPower_eq h1 h32 hlow]
  rw [vecSet_of_lt (by omega), ok_bind, vecSet_of_lt (by rw [List.length_set]; omega), ok_bind, hv]
  rw [← set_set_eq_overwrite (by omega)] at hloop
  have hfirst : node 0 0 = v 0 ∧ node 0 1 = v 0 := ⟨rfl, rfl⟩
  rw [hfirst.1, hfirst.2] at hloop
  rw [Nat.add_sub_cancel, Nat.and_one_is_mod, hloop, ok_bind, hcopy]

end Eval

/-! ### The exchange of the sums -/

variable {height : ℕ}

theorem xorRecvBlocks_eq (f : Uint128 → Uint128) {cot : OtRecvStore} (h : height ≤ cot.size)
    (sums : ℕ → Uint128) :
    ∃ v, xorRecvBlocks f cot height sums = .ok v ∧
      ∀ i < height, v i = sums i ^^^ f (cot.block i) := by
  refine ⟨_, forLoop_update (fun i x => x ^^^ f (cot.block i)) (fun i hi sums => ?_) sums,
    fun i hi => if_pos hi⟩
  rw [OtRecvStore.getBlock_eq (by omega)]
  rfl

theorem xorSendBlocks_eq (f : Uint128 → Uint128) {cot : OtSendStore} {msgIdx : ℕ → ℕ}
    {m : ℕ → Uint128} (hm : ∀ i < height, cot.getBlock i (msgIdx i) = .ok (m i))
    (sums : ℕ → Uint128) :
    ∃ v, xorSendBlocks f cot height msgIdx sums = .ok v ∧
      ∀ i < height, v i = sums i ^^^ f (m i) := by
  refine ⟨_, forLoop_update (fun i x => x ^^^ f (m i)) (fun i hi sums => ?_) sums,
    fun i hi => if_pos hi⟩
  rw [hm i hi]
  rfl

theorem choicesToIndex_eq {cot : OtRecvStore} (h : height ≤ cot.size) (h32 : height ≤ 32) :
    ∃ index, choicesToIndex cot height = .ok index ∧
      index.toNat = (bitsOf height cot.choice).toNat := by
  obtain ⟨index, hindex, hbits⟩ := forLoop_ok (n := height)
    (f := fun i (index : BitVec 32) => do
      let c ← cot.getChoice i
      pure (index ||| shl32 (if c then 1 else 0) i)) (s := 0)
    (fun k index => ∀ i, index.getLsbD i = (decide (i < k) && cot.choice i)) (by simp) <| by
    intro k hk index hbits
    refine ⟨_, by rw [OtRecvStore.getChoice_eq (by omega)]; rfl, fun i => ?_⟩
    have hshift : (shl32 (if cot.choice k then 1 else 0) k).getLsbD i =
        (decide (i = k) && cot.choice k) := by
      rw [shl32, Nat.mod_eq_of_lt (by omega)]
      cases cot.choice k with
      | false => simp
      | true =>
        grind
    rw [BitVec.getLsbD_or, hbits, hshift]
    rcases Nat.lt_trichotomy i k with hlt | rfl | hgt
    · simp [hlt, hlt.ne, Nat.lt_succ_of_lt hlt]
    · simp
    · simp [hgt.ne', show ¬i < k by omega, show ¬i < k + 1 by omega]
  refine ⟨index, hindex, Nat.eq_of_testBit_eq fun i => ?_⟩
  rw [BitVec.testBit_toNat, BitVec.testBit_toNat, hbits, getLsbD_bitsOf]

theorem xor_mask_cancel (l x d : Uint128) (b c : Bool) :
    l ^^^ (x ^^^ if b then d else 0) ^^^ (x ^^^ if c then d else 0) =
      l ^^^ if b ^^ c then d else 0 := by
  have hcancel : ∀ p q : Uint128, l ^^^ (x ^^^ p) ^^^ (x ^^^ q) = x ^^^ x ^^^ (l ^^^ (p ^^^ q)) :=
    fun p q => by ac_rfl
  rw [hcancel]
  cases b <;> cases c <;> simp

variable {s : OtSendStore}

/-- **Correlated transfers of the sums.** The sender masks the sum of level `i` with its block
`b i`; the receiver gets the sum, plus `delta` if `b i` is not its choice. -/
theorem exchange_sums {r : OtRecvStore} (hbase : BaseOts r s) (hdelta : s.delta ≠ 0)
    {f : Uint128 → Uint128} (hf : ∀ x y, f (x ^^^ y) = f x ^^^ f y) (b : ℕ → Bool)
    (left : ℕ → Uint128) :
    ∃ sums, xorSendBlocks f s r.size (fun i => (b i).toNat) left = .ok sums ∧
      ∀ msgs : ℕ → Uint128, (∀ i < r.size, msgs i = sums i) →
        ∃ v, xorRecvBlocks f r r.size msgs = .ok v ∧
          ∀ i < r.size, v i = left i ^^^ if b i ^^ r.choice i then f s.delta else 0 := by
  choose! x hx hr using fun i (hi : i < r.size) => hbase.correlated hdelta hi
  obtain ⟨sums, hsums, hsend⟩ := xorSendBlocks_eq f (fun i (hi : i < r.size) => hx i hi (b i)) left
  refine ⟨sums, hsums, fun msgs hmsgs => ?_⟩
  obtain ⟨v, hv, hrecv⟩ := xorRecvBlocks_eq f le_rfl msgs
  refine ⟨v, hv, fun i hi => ?_⟩
  have hzero : f 0 = 0 := by simpa using hf 0 0
  have hite : ∀ c : Bool, f (if c then s.delta else 0) = if c then f s.delta else 0 := by
    intro c
    cases c with
    | false => exact hzero
    | true => rfl
  rw [hrecv i hi, hmsgs i hi, hsend i hi, hr i hi, hf, hf, hite, hite]
  exact xor_mask_cancel (left i) (f (x i)) (f s.delta) (b i) (r.choice i)

/-! ### Correctness -/

/-- **A single-point correlation.** The first `n` entries of the two vectors are equal, except that
they differ by `delta` at the index. -/
def SinglePoint (n index : ℕ) (delta : Uint128) (a b : List Uint128) : Prop :=
  ∀ i < n, ∃ x, a[i]? = some x ∧ b[i]? = some (x ^^^ if i = index then delta else 0)

/-- The leaves of the sender's tree; the mask `one` of the evaluation has no effect. -/
def gywzLeaf (delta seed : Uint128) (l : ℕ) : ℕ → Uint128 :=
  halfNode (cggmLeft T (.allOnes 128)) (seed &&& .allOnes 128) (delta &&& .allOnes 128) l

theorem halfPunctured_eq_halfNode {one seed delta : Uint128} {left v : ℕ → Uint128} {index : ℕ}
    (hleft : ∀ j ≤ l, left j = halfLeft (cggmLeft T one) seed delta j)
    (hv : ∀ j < l + 1, v j = left j ^^^ if !index.testBit j then delta else 0)
    (hindex : index < 2 ^ (l + 1)) {i : ℕ} (hi : i < 2 ^ (l + 1)) :
    halfPunctured (cggmLeft T one) v index l i =
      halfNode (cggmLeft T one) seed delta l i ^^^ if i = index then delta else 0 := by
  have hsums : ∀ j < l + 1, v j = halfLeft (cggmLeft T one) seed delta j ^^^
      if index.testBit j then 0 else delta := by
    intro j hj
    rw [hv j hj, hleft j (by omega)]
    cases index.testBit j <;> rfl
  rw [halfPunctured_eq _ hsums (Nat.lt_succ_self l) hi, Nat.mod_eq_of_lt hindex]

theorem singlePoint_overwrite {index : ℕ} (delta : Uint128) (f : ℕ → Uint128) {a b : List Uint128}
    (ha : n ≤ a.length) (hb : n ≤ b.length) :
    SinglePoint n index delta (overwrite a 0 n f)
      (overwrite b 0 n fun i => f i ^^^ if i = index then delta else 0) := fun i hi =>
  ⟨f i, getElem?_overwrite_of_mem (by omega) (by omega), getElem?_overwrite_of_mem (by omega)
    (by omega)⟩

section Sessions

variable {r : OtRecvStore} {s : OtSendStore} (hbase : BaseOts r s) (hdelta : s.delta ≠ 0) {n l : ℕ}
  (h1 : 1 < n) (h32 : n < 2 ^ 32) (hlog : log2Ceil n = .ok (l + 1)) (hlow : 2 ^ l < n)
  (hn : n ≤ 2 ^ (l + 1)) (hsize : r.size = l + 1) (seed : Uint128) {outS outR : List Uint128}
  (hS : n ≤ outS.length) (hR : n ≤ outR.length)

include hbase hdelta h1 h32 hlog hlow hn hsize hS hR

theorem gywzOtExt_session {index : ℕ} (hindex : index < n) :
    Session False (gywzOtExtSend T seed s n outS) (gywzOtExtRecv T r n index outR) fun a b =>
      a = overwrite outS 0 n (gywzLeaf T s.delta seed l) ∧
        b = overwrite outR 0 n fun i =>
          gywzLeaf T s.delta seed l i ^^^ if i = index then s.delta else 0 := by
  have hl : l < 32 := (Nat.pow_lt_pow_iff_right (by omega)).mp (hlow.trans h32)
  obtain ⟨left, hfull, hleft⟩ :=
    cggmFullEval_eq T h1 hlow hn h32 hS hlog s.delta seed (.allOnes 128)
  obtain ⟨masked, hmask, hmsize, hmbits⟩ := maskChoice_eq (show l + 1 ≤ r.size by omega)
    (((DynamicBitset.ofSize 0).append (BitVec.ofNat 128 index)).size_resize (l + 1))
  have hblocks : masked.blocks.length = 1 := by
    rw [masked.blocks_length, blocksRequired]
    split <;> omega
  obtain ⟨bits, hbits, hbit⟩ := memcpyBits_bitsetBytes masked
  rw [hmsize] at hbits hbit
  obtain ⟨sums, hsums, hrecv⟩ := exchange_sums hbase hdelta (f := id) (fun _ _ => rfl)
    (fun i => !bits i) left
  obtain ⟨msgs, hmsgs, hmsg⟩ := memcpyBlocks_blockBytes (l + 1) sums
  rw [hsize] at hsums hrecv
  obtain ⟨v, hv, hvi⟩ := hrecv msgs hmsg
  have hmsgIdx : (fun i => 1 - (bits i).toNat) = fun i => (!bits i).toNat := by
    funext i
    cases bits i <;> rfl
  have hpunc := cggmPuncFullEval_eq T h1 hlow hn h32 hR index
    (show v 0 &&& .allOnes 128 = v 0 from BitVec.and_allOnes)
  rw [gywzOtExtSend, gywzOtExtRecv, hlog]
  simp only [liftM_ok, Proc.pure_bind, enforce_of_pos (hbase.size_eq.trans hsize),
    enforceThat_of_pos h1, enforce_of_pos hsize, enforceThat_of_pos hindex,
    OtSendStore.getDelta_eq hdelta, hmask, hfull, enforce_of_pos hblocks]
  refine .recv_send ?_
  simp only [liftM_ok, Proc.pure_bind, hbits, hmsgIdx, hsums]
  refine .send_recv ?_
  simp only [liftM_ok, Proc.pure_bind, hmsgs, hv, hpunc]
  rw [gywzLeaf]
  rw [BitVec.and_allOnes, BitVec.and_allOnes] at hleft ⊢
  refine .ret ⟨rfl, overwrite_congr fun i hi => ?_⟩
  refine halfPunctured_eq_halfNode T hleft (fun j hj => ?_) (by omega) (by omega)
  rw [hvi j hj, hbit j hj, hmbits j hj, indexChoice_bit hj (by omega)]
  cases index.testBit j <;> cases r.choice j <;> rfl

omit hR in
/-- **The messages for a fixed index.** The receiver grows its leaves from the messages of the
sender, with the index that the choices of the transfers spell. -/
theorem gywzOtExtFixedIndexMsgs_eq :
    ∃ sums, gywzOtExtSendFixedIndexMsgs T seed s n outS (l + 1) =
        .ok (overwrite outS 0 n (gywzLeaf T s.delta seed l), sums) ∧
      ∀ outR : List Uint128, n ≤ outR.length → ∀ msgs : ℕ → Uint128,
        (∀ i < l + 1, msgs i = sums i) →
        gywzOtExtRecvFixedIndexMsgs T r n outR (l + 1) msgs = .ok (overwrite outR 0 n fun i =>
          gywzLeaf T s.delta seed l i ^^^
            if i = (bitsOf (l + 1) r.choice).toNat then s.delta else 0) := by
  have hl : l < 32 := (Nat.pow_lt_pow_iff_right (by omega)).mp (hlow.trans h32)
  obtain ⟨left, hfull, hleft⟩ :=
    cggmFullEval_eq T h1 hlow hn h32 hS hlog s.delta seed (.allOnes 128)
  obtain ⟨index, hindex, htoNat⟩ := choicesToIndex_eq (show l + 1 ≤ r.size by omega) (by omega)
  obtain ⟨sums, hsums, hrecv⟩ := exchange_sums hbase hdelta (f := id) (fun _ _ => rfl)
    (fun _ => true) left
  rw [hsize] at hrecv
  replace hsums : xorSendBlocks id s (l + 1) (fun _ => 1) left = .ok sums := hsize ▸ hsums
  refine ⟨sums, ?_, fun outR hR msgs hmsgs => ?_⟩
  · rw [gywzOtExtSendFixedIndexMsgs, hlog, ok_bind, enforce_bind (hbase.size_eq.trans hsize),
      enforceThat_bind h1, enforce_bind le_rfl, OtSendStore.getDelta_eq hdelta, ok_bind, hfull,
      ok_bind]
    dsimp only
    rw [hsums]
    rfl
  · obtain ⟨v, hv, hvi⟩ := hrecv msgs hmsgs
    rw [gywzOtExtRecvFixedIndexMsgs, hlog, ok_bind, enforce_bind hsize, enforceThat_bind h1,
      enforce_bind le_rfl, hindex, ok_bind, hv, ok_bind,
      cggmPuncFullEval_eq T h1 hlow hn h32 hR index.toNat
        (show v 0 &&& .allOnes 128 = v 0 from BitVec.and_allOnes),
      htoNat]
    rw [gywzLeaf]
    rw [BitVec.and_allOnes, BitVec.and_allOnes] at hleft ⊢
    refine congrArg Except.ok (overwrite_congr fun i hi => ?_)
    refine halfPunctured_eq_halfNode T hleft (fun j hj => ?_) (BitVec.isLt _) (by omega)
    rw [hvi j hj, BitVec.testBit_toNat, getLsbD_bitsOf_of_lt hj]
    cases r.choice j <;> rfl

/-- The two parties with the index that the choices of the transfers spell. -/
theorem gywzOtExtFixedIndex_session :
    Session False (gywzOtExtSendFixedIndex T seed s n outS) (gywzOtExtRecvFixedIndex T r n outR)
      (SinglePoint n (bitsOf (l + 1) r.choice).toNat s.delta) := by
  obtain ⟨sums, hsend, hrecv⟩ := gywzOtExtFixedIndexMsgs_eq T hbase hdelta h1 h32 hlog hlow hn hsize
    seed hS
  have hrecvMsgs := hrecv outR hR (Bytes.wordAt 16 (blockBytes (l + 1) sums))
    fun i hi => wordAt_blockBytes hi sums
  have hlen : (blockBytes (l + 1) sums).length ≥ (l + 1) * 16 := by
    rw [length_blockBytes]
    omega
  rw [gywzOtExtSendFixedIndex, gywzOtExtRecvFixedIndex, hlog]
  simp only [liftM_ok, Proc.pure_bind, enforce_of_pos (hbase.size_eq.trans hsize),
    enforceThat_of_pos h1, enforce_of_pos hsize, hsend]
  refine .send_recv ?_
  simp only [enforce_of_pos hlen, hrecvMsgs]
  exact .ret (singlePoint_overwrite s.delta _ hS hR)

end Sessions

/-! ### Trees with even labels -/

theorem getLsbD_ferretOne {i : ℕ} (hi : i < 128) : ferretOne.getLsbD i = !decide (i = 0) := by
  rw [show ferretOne = ~~~1#128 from rfl, BitVec.getLsbD_not]
  simp [hi]

theorem and_ferretOne_and (x : Uint128) : x &&& ferretOne &&& ferretOne = x &&& ferretOne := by
  rw [BitVec.and_assoc, BitVec.and_self]

theorem getLsbD_zero_and_ferretOne (x : Uint128) : (x &&& ferretOne).getLsbD 0 = false := by
  rw [BitVec.getLsbD_and, show ferretOne.getLsbD 0 = false from rfl, Bool.and_false]

theorem and_ferretOne_of_even {x : Uint128} (h : x.getLsbD 0 = false) : x &&& ferretOne = x := by
  refine BitVec.eq_of_getLsbD_eq fun i hi => ?_
  rw [BitVec.getLsbD_and, getLsbD_ferretOne hi]
  rcases eq_or_ne i 0 with rfl | hne
  · rw [h, Bool.false_and]
  · rw [decide_eq_false hne, Bool.not_false, Bool.and_true]

theorem xor_and_ferretOne (x y : Uint128) :
    (x ^^^ y) &&& ferretOne = (x &&& ferretOne) ^^^ (y &&& ferretOne) := by
  refine BitVec.eq_of_getLsbD_eq fun i _ => ?_
  rw [BitVec.getLsbD_and, BitVec.getLsbD_xor, BitVec.getLsbD_xor, BitVec.getLsbD_and,
    BitVec.getLsbD_and, Bool.and_xor_distrib_right]

theorem xor_and_ferretOne_or {x delta : Uint128} (hx : x.getLsbD 0 = false)
    (hdelta : delta.getLsbD 0 = true) :
    (x ^^^ delta &&& ferretOne) ||| ~~~ferretOne = x ^^^ delta := by
  refine BitVec.eq_of_getLsbD_eq fun i hi => ?_
  rw [BitVec.getLsbD_or, BitVec.getLsbD_xor, BitVec.getLsbD_and, BitVec.getLsbD_not,
    getLsbD_ferretOne hi, BitVec.getLsbD_xor, decide_eq_true hi, Bool.true_and, Bool.not_not]
  rcases eq_or_ne i 0 with rfl | hne
  · rw [hx, hdelta, decide_eq_true rfl]
    rfl
  · rw [decide_eq_false hne, Bool.not_false, Bool.and_true, Bool.or_false]

/-- The leaves of the sender's tree in the ferret variants. -/
def ferretLeaf (delta seed : Uint128) (l : ℕ) : ℕ → Uint128 :=
  halfNode (cggmLeft T ferretOne) (seed &&& ferretOne) (delta &&& ferretOne) l

theorem ferretLeaf_even (delta seed : Uint128) (l i : ℕ) :
    (ferretLeaf T delta seed l i).getLsbD 0 = false := by
  refine halfNode_of_closed _ (P := fun x => x.getLsbD 0 = false)
    (fun x => getLsbD_zero_and_ferretOne _) (fun x y hx hy => ?_) (getLsbD_zero_and_ferretOne seed)
    (getLsbD_zero_and_ferretOne delta) l i
  rw [BitVec.getLsbD_xor, hx, hy]
  rfl

theorem gywzOtExtSendFerret_returns (htype : s.type = .compact) (hdelta : s.delta ≠ 0)
    (h64 : s.useSize ≤ 2 ^ 64) (h1 : 1 < n) (h32 : n < 2 ^ 32) (hlog : log2Ceil n = .ok s.size)
    (seed : Uint128) (hout : n ≤ out.length) :
    ∃ res, (gywzOtExtSendFerret T seed s n out).Returns res ∧ res.length = out.length := by
  obtain ⟨l, hlog', hlow, hn⟩ := log2Ceil_spec h1
  have hsize : s.size = l + 1 := Except.ok.inj (hlog.symm.trans hlog')
  obtain ⟨left, hfull, -⟩ := cggmFullEval_eq T h1 hlow hn h32 hout hlog' (s.delta &&& ferretOne)
    (seed &&& ferretOne) ferretOne
  have huse : s.useSize = l + 1 := by
    rw [OtSendStore.size_eq_div, htype] at hsize
    exact (Nat.div_one _).symm.trans hsize
  obtain ⟨sums, hsums, -⟩ := xorSendBlocks_eq (· &&& ferretOne) (fun i (hi : i < l + 1) =>
    OtSendStore.getBlock_of_compact htype hdelta (huse ▸ hi) h64 true) left
  rw [and_ferretOne_and, and_ferretOne_and] at hfull
  refine ⟨overwrite out 0 n (ferretLeaf T s.delta seed l), ?_, length_overwrite ..⟩
  rw [gywzOtExtSendFerret, hlog']
  simp only [liftM_ok, Proc.pure_bind, enforce_of_pos hsize, enforceThat_of_pos h1,
    enforce_of_pos htype, OtSendStore.getDelta_eq hdelta, hfull]
  exact (returns_of_ok hsums).bind (.send _ (.ret _))

/-- **GYWZ over compact transfers.** All labels of the trees are even. The receiver sets the low bit
at the index, where the vectors then differ by the odd `delta`. -/
theorem gywzOtExtFerret_session {r : OtRecvStore} (hbase : BaseOts r s)
    (hodd : s.delta.getLsbD 0 = true) (hrtype : r.type = .compact) (hstype : s.type = .compact)
    (h1 : 1 < n) (h32 : n < 2 ^ 32) (hlog : log2Ceil n = .ok (l + 1)) (hsize : r.size = l + 1)
    (seed : Uint128) {outS outR : List Uint128} (hS : n ≤ outS.length) (hR : n ≤ outR.length) :
    Session False (gywzOtExtSendFerret T seed s n outS) (gywzOtExtRecvFerret T r n outR) fun a b =>
      a = overwrite outS 0 n (ferretLeaf T s.delta seed l) ∧
        b = overwrite outR 0 n fun i => ferretLeaf T s.delta seed l i ^^^
          if i = (bitsOf (l + 1) r.choice).toNat then s.delta else 0 := by
  obtain ⟨hlow, hn⟩ : 2 ^ l < n ∧ n ≤ 2 ^ (l + 1) := by
    obtain ⟨l', hlog', hlow, hn⟩ := log2Ceil_spec h1
    obtain rfl : l' = l := Nat.succ.inj (Except.ok.inj (hlog'.symm.trans hlog))
    exact ⟨hlow, hn⟩
  have hl : l < 32 := (Nat.pow_lt_pow_iff_right (by omega)).mp (hlow.trans h32)
  have hdelta : s.delta ≠ 0 := by
    intro h0
    rw [h0] at hodd
    contradiction
  obtain ⟨left, hfull, hleft⟩ := cggmFullEval_eq T h1 hlow hn h32 hS hlog (s.delta &&& ferretOne)
    (seed &&& ferretOne) ferretOne
  rw [and_ferretOne_and, and_ferretOne_and] at hfull hleft
  obtain ⟨index, hindex, htoNat⟩ := choicesToIndex_eq (show l + 1 ≤ r.size by omega) (by omega)
  obtain ⟨sums, hsums, hrecv⟩ := exchange_sums hbase hdelta (f := (· &&& ferretOne))
    xor_and_ferretOne (fun _ => true) left
  replace hsums : xorSendBlocks (· &&& ferretOne) s (l + 1) (fun _ => 1) left = .ok sums :=
    hsize ▸ hsums
  obtain ⟨msgs, hmsgs, hmsg⟩ := memcpyBlocks_blockBytes (l + 1) sums
  rw [hsize] at hrecv
  obtain ⟨v, hv, hvi⟩ := hrecv msgs hmsg
  have hv0 : v 0 &&& ferretOne = v 0 := by
    refine and_ferretOne_of_even ?_
    rw [hvi 0 (by omega), hleft 0 (by omega), halfLeft, BitVec.getLsbD_xor,
      getLsbD_zero_and_ferretOne, getLsbD_ite_zero, getLsbD_zero_and_ferretOne]
    simp
  have hpunc := cggmPuncFullEval_eq T h1 hlow hn h32 hR index.toNat hv0
  rw [gywzOtExtSendFerret, gywzOtExtRecvFerret, hlog]
  simp only [liftM_ok, Proc.pure_bind, enforce_of_pos (hbase.size_eq.trans hsize),
    enforceThat_of_pos h1, enforce_of_pos hsize, enforce_of_pos hrtype, enforce_of_pos hstype,
    OtSendStore.getDelta_eq hdelta, hfull, hsums, hindex]
  refine .send_recv ?_
  simp only [liftM_ok, Proc.pure_bind, hmsgs, hv, hpunc]
  have hleaf : ∀ i < n, halfPunctured (cggmLeft T ferretOne) v index.toNat l i =
      ferretLeaf T s.delta seed l i ^^^ if i = index.toNat then s.delta &&& ferretOne else 0 := by
    intro i hi
    refine halfPunctured_eq_halfNode T hleft (fun j hj => ?_) (htoNat ▸ BitVec.isLt _) (by omega)
    rw [hvi j hj, htoNat, BitVec.testBit_toNat, getLsbD_bitsOf_of_lt hj]
    cases r.choice j <;> rfl
  rw [overwrite_congr hleaf, ← htoNat]
  split
  · next hin =>
    rw [vecGet_of_getElem? (getElem?_overwrite_of_mem (hin.trans_le hR) ⟨Nat.zero_le _, by omega⟩),
      liftM_ok, Proc.pure_bind, vecSet_of_lt (by rw [length_overwrite]; exact hin.trans_le hR),
      overwrite_set hin, Nat.sub_zero, if_pos rfl,
      xor_and_ferretOne_or (ferretLeaf_even T s.delta seed l index.toNat) hodd]
    refine .ret ⟨rfl, overwrite_congr fun i hi => ?_⟩
    rcases eq_or_ne i index.toNat with rfl | hne
    · rw [Function.update_self, if_pos rfl]
    · rw [Function.update_of_ne hne, if_neg hne, if_neg hne]
  · refine .ret ⟨rfl, overwrite_congr fun i hi => ?_⟩
    rw [if_neg (by omega), if_neg (by omega)]

/-- **GYWZ single-point COT.** For every number of leaves, over correct correlated transfers, one
for each level of the tree, both parties complete in every interleaving, and their vectors differ
by `delta` at the index only. An index that the choices spell may lie outside the vectors, which
are then equal. For more than `2 ^ 31` leaves the test for a power of two shifts a `uint32_t` by
`32`, which is undefined in the source: there the theorem rests on the shift of the machine
(`shl32`). -/
theorem gywzOtExt_completes {r : OtRecvStore} {s : OtSendStore} (hbase : BaseOts r s)
    (hdelta : s.delta ≠ 0) {n : ℕ} (h1 : 1 < n) (h32 : n < 2 ^ 32)
    (hsize : log2Ceil n = .ok r.size) (seed : Uint128) {outS outR : List Uint128}
    (hS : n ≤ outS.length) (hR : n ≤ outR.length) :
    (∀ index < n, Completes (gywzOtExtSend T seed s n outS) (gywzOtExtRecv T r n index outR)
        (SinglePoint n index s.delta)) ∧
      Completes (gywzOtExtSendFixedIndex T seed s n outS) (gywzOtExtRecvFixedIndex T r n outR)
        (SinglePoint n (bitsOf r.size r.choice).toNat s.delta) := by
  obtain ⟨l, hlog, hlow, hn⟩ := log2Ceil_spec h1
  have hrs : r.size = l + 1 := Except.ok.inj (hsize.symm.trans hlog)
  refine ⟨fun index hindex => Session.completes ?_, Session.completes ?_⟩
  · refine (gywzOtExt_session T hbase hdelta h1 h32 hlog hlow hn hrs seed hS hR hindex).mono ?_
    rintro _ _ ⟨rfl, rfl⟩
    exact singlePoint_overwrite s.delta _ hS hR
  · rw [hrs]
    exact gywzOtExtFixedIndex_session T hbase hdelta h1 h32 hlog hlow hn hrs seed hS hR

/-- Trees of three leaves over two mock transfers, whose choices spell an index outside. -/
theorem gywzOtExt_completes_three :
    ∃ send recv, mockCompactOts 4 [1, 3] = .ok (send, recv) ∧
      (∀ index < 3, Completes (gywzOtExtSend default 9 send 3 [0, 0, 0])
          (gywzOtExtRecv default recv 3 index [0, 0, 0]) (SinglePoint 3 index send.delta)) ∧
        Completes (gywzOtExtSendFixedIndex default 9 send 3 [0, 0, 0])
          (gywzOtExtRecvFixedIndex default recv 3 [0, 0, 0])
          (SinglePoint 3 (bitsOf recv.size recv.choice).toNat send.delta) := by
  obtain ⟨send, recv, hmock, hbase, hsize, -, -, hdelta⟩ :=
    mockCompactOts_baseOts [1, 3] 4 (by simp) (by simp)
  refine ⟨send, recv, hmock, ?_⟩
  exact gywzOtExt_completes default hbase (by rw [hdelta]; decide) (by omega) (by omega)
    (by rw [hsize]; decide) 9 (by simp) (by simp)

end Yacl.Crypto
