import Yacl.Crypto.Tools
import Yacl.Kernel.OtStoreUtils

/-!
# The OT kernel

The model of `yacl/kernel/ot_kernel.cc`. A kernel runs one of two OT extensions and turns the
correlated transfers of the extension into **random transfers**, by hashing every block
(`eval_rot`); `naive_rot2ot` turns random transfers into **chosen** ones, in batches of 128 pairs.

The extensions are programs of their own, with modules of their own, and appear here as the
fields of `OtExtension`. A pair of kernels is `Matching` if the extension that both of them use
gives correct compact transfers; then `eval_rot` completes with correct random transfers, for
every number of transfers below `2 ^ 32` (`evalRot_completes`). The number of batches of
`naive_rot2ot` is computed in 32 bits: rounding up wraps around for the last 127 numbers, and
then not a single batch is sent (`batchNum_of_large`, `naiveRot2ot_large`).
-/

open Loop TwoParty Proc

namespace Yacl.Crypto

/-! ### Writing to stores -/

theorem OtSendStore.setNormalBlock_eq {s : OtSendStore} (htype : s.type = .normal) {i : ℕ}
    {b : Bool} (hi : i * 2 + b.toNat < s.useSize) (h64 : s.useSize < 2 ^ 64) (val : Uint128) :
    ∃ s', s.setNormalBlock i b.toNat val = .ok s' ∧ s'.toSliceBase = s.toSliceBase ∧
      s'.type = .normal ∧ s'.delta = s.delta ∧
      s'.blkBuf = s.blkBuf.set (s.useCtr + (i * 2 + b.toNat)) val := by
  rw [setNormalBlock, enforce_bind htype, enforce_bind (by cases b <;> simp),
    Nat.mod_eq_of_lt (by omega), SliceBase.getBufIdx_eq hi]
  exact ⟨_, rfl, rfl, htype, rfl, rfl⟩

theorem OtRecvStore.setBlock_eq {s : OtRecvStore} {i : ℕ} (hi : i < s.size) (val : Uint128) :
    ∃ s', s.setBlock i val = .ok s' ∧ s'.toSliceBase = s.toSliceBase ∧ s'.type = s.type ∧
      s'.bitBuf = s.bitBuf ∧ s'.blkBuf = s.blkBuf.set (s.useCtr + i) val := by
  rw [setBlock, SliceBase.getBufIdx_eq hi]
  exact ⟨_, rfl, rfl, rfl, rfl, rfl⟩

variable {n : ℕ}

theorem OtSendStore.ofNum_normal (hpos : 0 < n) (hlt : n < 2 ^ 63) :
    ∃ s, ofNum n .normal = .ok s ∧ s.toSliceBase.isSliced = false ∧ s.useCtr = 0 ∧
      s.useSize = n * 2 ∧ s.type = .normal ∧ s.delta = 0 ∧ s.blkBuf.length = n * 2 := by
  have hmod : n * 2 % 2 ^ 64 = n * 2 := Nat.mod_eq_of_lt (by omega)
  rw [ofNum, if_pos rfl, hmod, init_eq (by omega) (by omega) (by omega) List.length_replicate.ge]
  exact ⟨_, rfl, rfl, rfl, rfl, rfl, rfl, List.length_replicate⟩

theorem OtRecvStore.ofNum_normal (hpos : 0 < n) :
    ∃ r, ofNum n .normal = .ok r ∧ r.toSliceBase.isSliced = false ∧ r.useCtr = 0 ∧
      r.useSize = n ∧ r.type = .normal ∧ r.blkBuf.length = n := by
  have hbit : (DynamicBitset.ofSize n).size = (List.replicate n (0 : Uint128)).length :=
    List.length_replicate.symm
  rw [ofNum, if_pos rfl, init_eq hpos (by omega) (by omega) List.length_replicate.ge fun _ => hbit]
  exact ⟨_, rfl, rfl, rfl, rfl, rfl, List.length_replicate⟩

theorem OtSendStore.ofNum_compact (hpos : 0 < n) :
    ∃ s, ofNum n .compact = .ok s ∧ s.toSliceBase.isSliced = false ∧ s.size = n ∧
      s.type = .compact := by
  rw [ofNum, if_neg (by decide), init_eq hpos (by omega) (by omega) List.length_replicate.ge]
  exact ⟨_, rfl, rfl, rfl, rfl⟩

theorem OtRecvStore.ofNum_compact (hpos : 0 < n) :
    ∃ r, ofNum n .compact = .ok r ∧ r.toSliceBase.isSliced = false ∧ r.size = n ∧
      r.type = .compact := by
  rw [ofNum, init_eq hpos (by omega) (by omega) List.length_replicate.ge (by simp)]
  exact ⟨_, rfl, rfl, rfl, rfl⟩

/-- Correct transfers of the given type and number. -/
structure Ots (type : OtStoreType) (n : ℕ) (s : OtSendStore) (r : OtRecvStore) : Prop where
  send_type : s.type = type
  recv_type : r.type = type
  size_eq : r.size = n
  baseOts : BaseOts r s

namespace OtKernel

variable (T : Tools)

/-! ### From correlated to random transfers -/

/-- The body of the loop of the sender's `naive_cot2rot`. -/
def cot2rotSendStep (cot : OtSendStore) (i : ℕ) (rot : OtSendStore) :
    Except Exception OtSendStore := do
  let rot ← rot.setNormalBlock i 0 (crHash128 T (← cot.getBlock i 0))
  rot.setNormalBlock i 1 (crHash128 T (← cot.getBlock i 1))

/-- `naive_cot2rot` of the sender; the result is `rot_store` after the call. -/
def naiveCot2rotSend (cot rot : OtSendStore) : Except Exception OtSendStore := do
  enforce (cot.size = rot.size) "cot_store.Size() == rot_store->Size()" ""
  enforce (cot.type = .compact) "cot_store.Type() == OtStoreType::Compact" ""
  enforce (rot.type = .normal) "rot_store->Type() == OtStoreType::Normal" ""
  let otNum := cot.size % 2 ^ 32
  forLoop otNum (cot2rotSendStep T cot) rot

/-- The body of the loop of the receiver's `naive_cot2rot`. -/
def cot2rotRecvStep (cot : OtRecvStore) (i : ℕ) (rot : OtRecvStore) :
    Except Exception OtRecvStore := do
  rot.setBlock i (crHash128 T (← cot.getBlock i))

/-- `naive_cot2rot` of the receiver. -/
def naiveCot2rotRecv (cot rot : OtRecvStore) : Except Exception OtRecvStore := do
  let otNum := cot.size % 2 ^ 32
  enforce (cot.type = .compact) "cot_store.Type() == OtStoreType::Compact" ""
  enforce (rot.type = .normal) "rot_store->Type() == OtStoreType::Normal" ""
  let choices ← cot.copyBitBuf
  let rot ← rot.setBitBuf choices
  forLoop otNum (cot2rotRecvStep T cot) rot

/-- What the sender's loop has written before iteration `j`. -/
structure SentUpTo (rot0 : OtSendStore) (v : ℕ → Bool → Uint128) (j : ℕ) (rot : OtSendStore) :
    Prop where
  slice_eq : rot.toSliceBase = rot0.toSliceBase
  type_eq : rot.type = .normal
  delta_eq : rot.delta = 0
  length_eq : rot.blkBuf.length = rot0.blkBuf.length
  written : ∀ i < j, ∀ b : Bool, rot.blkBuf[2 * i + b.toNat]? = some (v i b)

variable {n : ℕ}

theorem cot2rotSendStep_eq {cot rot0 rot : OtSendStore} {j : ℕ} (hctr : rot0.useCtr = 0)
    (huse : rot0.useSize = n * 2) (hlen : rot0.blkBuf.length = n * 2) (h64 : n < 2 ^ 63)
    (hj : j < n) {m : ℕ → Bool → Uint128} (hm : ∀ b : Bool, cot.getBlock j b.toNat = .ok (m j b))
    (h : SentUpTo rot0 (fun i b => crHash128 T (m i b)) j rot) :
    ∃ rot', cot2rotSendStep T cot j rot = .ok rot' ∧
      SentUpTo rot0 (fun i b => crHash128 T (m i b)) (j + 1) rot' := by
  have hm0 : cot.getBlock j 0 = .ok (m j false) := hm false
  have hm1 : cot.getBlock j 1 = .ok (m j true) := hm true
  have hsize : rot.useSize = n * 2 := by rw [h.slice_eq, huse]
  have hctr' : rot.useCtr = 0 := by rw [h.slice_eq, hctr]
  obtain ⟨rot1, h1, hslice1, htype1, hdelta1, hbuf1⟩ :=
    OtSendStore.setNormalBlock_eq h.type_eq (i := j) (b := false) (by simp; omega) (by omega)
      (crHash128 T (m j false))
  obtain ⟨rot2, h2, hslice2, htype2, hdelta2, hbuf2⟩ :=
    OtSendStore.setNormalBlock_eq htype1 (i := j) (b := true) (by rw [hslice1]; simp; omega)
      (by rw [hslice1]; omega) (crHash128 T (m j true))
  refine ⟨rot2, ?_, ⟨?_, htype2, ?_, ?_, ?_⟩⟩
  · rw [cot2rotSendStep, hm0, ok_bind]
    exact (congrArg (· >>= _) h1).trans (by rw [hm1]; exact h2)
  · rw [hslice2, hslice1, h.slice_eq]
  · rw [hdelta2, hdelta1, h.delta_eq]
  · rw [hbuf2, hbuf1, List.length_set, List.length_set, h.length_eq]
  · intro i hi b
    have hlen' : rot.blkBuf.length = n * 2 := h.length_eq.trans hlen
    rw [hbuf2, hbuf1, hslice1, hctr', List.getElem?_set, List.getElem?_set]
    rcases Nat.lt_succ_iff_lt_or_eq.mp hi with hlt | rfl
    · have hb := b.toNat_le
      rw [if_neg (by simp; omega), if_neg (by simp; omega)]
      exact h.written i hlt b
    · cases b <;> simp [Nat.mul_comm] <;> omega

/-- **The sender's random transfers** are the hashes of its correlated ones. -/
theorem naiveCot2rotSend_eq {cot rot : OtSendStore} (hpos : 0 < n) (hlt : n < 2 ^ 32)
    (hrot : OtSendStore.ofNum n .normal = .ok rot) (htype : cot.type = .compact)
    (hsize : cot.size = n) {m : ℕ → Bool → Uint128}
    (hm : ∀ i < n, ∀ b : Bool, cot.getBlock i b.toNat = .ok (m i b)) :
    ∃ rot', naiveCot2rotSend T cot rot = .ok rot' ∧ rot'.type = .normal ∧ rot'.size = n ∧
      ∀ i < n, ∀ b : Bool, rot'.getBlock i b.toNat = .ok (crHash128 T (m i b)) := by
  obtain ⟨rot', hof, -, hctr, huse, htype', hdelta, hlen⟩ :=
    OtSendStore.ofNum_normal hpos (by omega)
  obtain rfl : rot' = rot := Except.ok.inj (hof.symm.trans hrot)
  have hrsize : rot'.size = n := by
    rw [OtSendStore.size, htype', huse]
    exact Nat.mul_div_cancel n (by omega)
  obtain ⟨out, hout, hInv⟩ := forLoop_ok
    (SentUpTo rot' fun i b => crHash128 T (m i b)) ⟨rfl, htype', hdelta, rfl, by omega⟩
    fun j hj rot h => cot2rotSendStep_eq T hctr huse hlen (by omega) hj (hm j hj) h
  have hosize : out.useSize = n * 2 := by rw [hInv.slice_eq, huse]
  refine ⟨out, ?_, hInv.type_eq, ?_, fun i hi b => ?_⟩
  · rw [naiveCot2rotSend, enforce_bind (hsize.trans hrsize.symm), enforce_bind htype,
      enforce_bind htype', hsize, Nat.mod_eq_of_lt hlt]
    exact hout
  · rw [OtSendStore.size, hInv.type_eq, hosize]
    exact Nat.mul_div_cancel n (by omega)
  · refine OtSendStore.getBlock_of_delta_eq_zero hInv.delta_eq (by omega) (by omega) ?_
    rw [hInv.slice_eq, hctr, Nat.zero_add]
    exact hInv.written i hi b

/-- What the receiver's loop has written before iteration `j`. -/
structure ReceivedUpTo (rot0 : OtRecvStore) (v : ℕ → Uint128) (j : ℕ) (rot : OtRecvStore) :
    Prop where
  slice_eq : rot.toSliceBase = rot0.toSliceBase
  type_eq : rot.type = rot0.type
  bitBuf_eq : rot.bitBuf = rot0.bitBuf
  length_eq : rot.blkBuf.length = rot0.blkBuf.length
  written : ∀ i < j, rot.blkBuf[i]? = some (v i)

/-- **The receiver's random transfers**: the choices stay, and the blocks are hashed. -/
theorem naiveCot2rotRecv_eq {cot rot : OtRecvStore} (hpos : 0 < n) (hlt : n < 2 ^ 32)
    (hrot : OtRecvStore.ofNum n .normal = .ok rot) (htype : cot.type = .compact)
    (hsize : cot.size = n) :
    ∃ rot', naiveCot2rotRecv T cot rot = .ok rot' ∧ rot'.type = .normal ∧ rot'.size = n ∧
      ∀ i < n, rot'.choice i = cot.choice i ∧ rot'.block i = crHash128 T (cot.block i) := by
  obtain ⟨rot', hof, -, hctr, huse, htype', hlen⟩ := OtRecvStore.ofNum_normal hpos
  obtain rfl : rot' = rot := Except.ok.inj (hof.symm.trans hrot)
  obtain ⟨choices, hcopy, hcsize, hbits⟩ := cot.copyBitBuf_eq
  have hbuf : rot'.type = .normal → choices.size = rot'.blkBuf.length := fun _ => by
    rw [hcsize, hsize, hlen]
  let rot1 : OtRecvStore := { rot' with bitBuf := choices, bitBuf_size := hbuf }
  have hset : rot'.setBitBuf choices = .ok rot1 := dif_pos hbuf
  obtain ⟨out, hout, hInv⟩ := forLoop_ok (n := n) (f := cot2rotRecvStep T cot)
    (ReceivedUpTo rot1 fun i => crHash128 T (cot.block i)) ⟨rfl, rfl, rfl, rfl, by omega⟩ <| by
    intro j hj rot h
    have hsz : rot.size = n := by rw [OtRecvStore.size, h.slice_eq]; exact huse
    have hc : rot.useCtr = 0 := by rw [h.slice_eq]; exact hctr
    have hl : rot.blkBuf.length = n := h.length_eq.trans hlen
    obtain ⟨rot2, h2, hslice2, htype2, hbits2, hbuf2⟩ :=
      OtRecvStore.setBlock_eq (hsz ▸ hj) (crHash128 T (cot.block j))
    refine ⟨rot2, ?_, hslice2.trans h.slice_eq, htype2.trans h.type_eq, hbits2.trans h.bitBuf_eq,
      ?_, fun i hi => ?_⟩
    · rw [cot2rotRecvStep, OtRecvStore.getBlock_eq (hsize.symm ▸ hj)]
      exact h2
    · rw [hbuf2, List.length_set, h.length_eq]
    · rw [hbuf2, hc, Nat.zero_add, List.getElem?_set]
      rcases Nat.lt_succ_iff_lt_or_eq.mp hi with hlt | rfl
      · rw [if_neg (by omega)]
        exact h.written i hlt
      · rw [if_pos rfl, if_pos (hl.symm ▸ hj)]
  have hotype : out.type = .normal := hInv.type_eq.trans htype'
  have hoctr : out.useCtr = 0 := by rw [hInv.slice_eq]; exact hctr
  refine ⟨out, ?_, hotype, ?_, fun i hi => ⟨?_, ?_⟩⟩
  · rw [naiveCot2rotRecv, enforce_bind htype, enforce_bind htype', hcopy, ok_bind, hset, ok_bind,
      hsize, Nat.mod_eq_of_lt hlt]
    exact hout
  · rw [OtRecvStore.size, hInv.slice_eq]
    exact huse
  · rw [OtRecvStore.choice_eq_ite, hotype, hInv.bitBuf_eq, hoctr, Nat.zero_add]
    refine (hbits i).trans ?_
    rw [hsize, decide_eq_true hi, Bool.true_and]
  · rw [OtRecvStore.block, hoctr, Nat.zero_add, List.getD_eq_getElem?_getD, hInv.written i hi]
    rfl

theorem naiveCot2rot_ots (hpos : 0 < n) (hlt : n < 2 ^ 32) {cots : OtSendStore} {cotr : OtRecvStore}
    (h : Ots .compact n cots cotr) {rots : OtSendStore} {rotr : OtRecvStore}
    (hs : OtSendStore.ofNum n .normal = .ok rots) (hr : OtRecvStore.ofNum n .normal = .ok rotr) :
    ∃ s r, naiveCot2rotSend T cots rots = .ok s ∧ naiveCot2rotRecv T cotr rotr = .ok r ∧
      Ots .normal n s r := by
  have hex : ∀ i, ∃ m : Bool → Uint128, i < n →
      (∀ b : Bool, cots.getBlock i b.toNat = .ok (m b)) ∧ cotr.block i = m (cotr.choice i) := by
    intro i
    by_cases hi : i < n
    · obtain ⟨m, hm⟩ := h.baseOts.getBlock_eq i (h.size_eq.symm ▸ hi)
      exact ⟨m, fun _ => hm⟩
    · exact ⟨fun _ => 0, fun hi' => absurd hi' hi⟩
  choose m hm using hex
  obtain ⟨s, hsend, hstype, hssize, hsblock⟩ := naiveCot2rotSend_eq T hpos hlt hs h.send_type
    (h.baseOts.size_eq.trans h.size_eq) fun i hi => (hm i hi).1
  obtain ⟨r, hrecv, hrtype, hrsize, hrblock⟩ :=
    naiveCot2rotRecv_eq T hpos hlt hr h.recv_type h.size_eq
  refine ⟨s, r, hsend, hrecv, hstype, hrtype, hrsize, hssize.trans hrsize.symm, fun i hi => ?_⟩
  have hi' : i < n := hrsize ▸ hi
  refine ⟨fun b => crHash128 T (m i b), hsblock i hi', ?_⟩
  rw [(hrblock i hi').1, (hrblock i hi').2, (hm i hi').2]

/-! ### From random to chosen transfers -/

/-- `kBatchSize`. -/
def kBatchSize : ℕ := 128

/-- `batch_num`, rounded up in `uint32_t`. -/
def batchNum (otNum : ℕ) : ℕ := (otNum + kBatchSize - 1) % 2 ^ 32 / kBatchSize

/-- `limit`: the number of transfers of batch `i`. -/
def batchLimit (otNum i : ℕ) : ℕ := min kBatchSize (otNum - i * kBatchSize)

theorem batchNum_of_le (h : n ≤ 2 ^ 32 - 128) : batchNum n = (n + 127) / 128 := by
  rw [batchNum, kBatchSize]
  omega

theorem batchNum_of_large (h : 2 ^ 32 - 128 < n) (hlt : n < 2 ^ 32) : batchNum n = 0 := by
  rw [batchNum, kBatchSize]
  omega

/-- The body of the inner loop of the sender's `naive_rot2ot`: if the masked choice is set, the two
masks are swapped. -/
def rot2otMask (ot : OtSendStore) (masked : ℕ → Bool) (msgpairs : List (Uint128 × Uint128))
    (i j : ℕ) (batchSend : ℕ → Uint128 × Uint128) : Except Exception (ℕ → Uint128 × Uint128) := do
  let idx := i * kBatchSize + j
  let msgs ← vecGet msgpairs idx
  if !masked idx then
    pure (Function.update batchSend j
      ((← ot.getBlock idx 0) ^^^ msgs.1, (← ot.getBlock idx 1) ^^^ msgs.2))
  else
    pure (Function.update batchSend j
      ((← ot.getBlock idx 1) ^^^ msgs.1, (← ot.getBlock idx 0) ^^^ msgs.2))

/-- `batch_send` of batch `i`. -/
def rot2otMaskBatch (ot : OtSendStore) (masked : ℕ → Bool) (msgpairs : List (Uint128 × Uint128))
    (otNum i : ℕ) : Except Exception (ℕ → Uint128 × Uint128) :=
  forLoop (batchLimit otNum i) (rot2otMask ot masked msgpairs i) fun _ => (0, 0)

/-- Block `k` of an array of pairs of blocks. -/
def pairBlock (a : ℕ → Uint128 × Uint128) (k : ℕ) : Uint128 :=
  if k % 2 = 0 then (a (k / 2)).1 else (a (k / 2)).2

/-- The body of the loop of the sender's `naive_rot2ot` over the batches. -/
def rot2otSendStep (ot : OtSendStore) (masked : ℕ → Bool) (msgpairs : List (Uint128 × Uint128))
    (otNum i : ℕ) (_ : Unit) : Party Unit := do
  let limit := batchLimit otNum i
  let batchSend ← rot2otMaskBatch ot masked msgpairs otNum i
  sendAsync (blockBytes (limit * 2) (pairBlock batchSend))

/-- `naive_rot2ot` of the sender. -/
def naiveRot2otSend (ot : OtSendStore) (msgpairs : List (Uint128 × Uint128)) : Party Unit := do
  enforce (ot.type = .normal) "ot_store.Type() == OtStoreType::Normal" ""
  enforce (ot.size = msgpairs.length) "ot_store.Size() == msgpairs.size()" ""
  let otNum := msgpairs.length % 2 ^ 32
  let buf ← recv
  let maskedChoices ← memcpyZeroed (blocksRequired otNum) buf
  forLoop (batchNum otNum)
    (rot2otSendStep ot (fun k => (maskedChoices (k / 128)).getLsbD (k % 128)) msgpairs otNum) ()

/-- The body of the inner loop of the receiver's `naive_rot2ot`. -/
def rot2otUnmask (ot : OtRecvStore) (choices : DynamicBitset) (batchRecv : ℕ → Uint128) (i j : ℕ)
    (out : List Uint128) : Except Exception (List Uint128) := do
  let idx := i * kBatchSize + j
  let c ← choices.test idx
  vecSet out idx (batchRecv (2 * j + c.toNat) ^^^ (← ot.getBlock idx))

/-- `out` after batch `i`. -/
def rot2otUnmaskBatch (ot : OtRecvStore) (choices : DynamicBitset) (batchRecv : ℕ → Uint128)
    (otNum i : ℕ) (out : List Uint128) : Except Exception (List Uint128) :=
  forLoop (batchLimit otNum i) (rot2otUnmask ot choices batchRecv i) out

/-- The body of the loop of the receiver's `naive_rot2ot` over the batches. -/
def rot2otRecvStep (ot : OtRecvStore) (choices : DynamicBitset) (otNum i : ℕ)
    (out : List Uint128) : Party (List Uint128) := do
  let limit := batchLimit otNum i
  let buf ← recv
  let batchRecv ← memcpyZeroed (limit * 2) buf
  rot2otUnmaskBatch ot choices batchRecv otNum i out

/-- `naive_rot2ot` of the receiver; the result is `out` after the call. -/
def naiveRot2otRecv (ot : OtRecvStore) (choices : DynamicBitset) (out : List Uint128) :
    Party (List Uint128) := do
  enforce (ot.type = .normal) "ot_store.Type() == OtStoreType::Normal" ""
  enforce (ot.size = choices.size) "ot_store.Size() == choices.size()" ""
  let otNum := ot.size % 2 ^ 32
  let copy ← ot.copyBitBuf
  let maskedChoice ← copy.xor choices
  sendAsync (bitsetBytes maskedChoice)
  forLoop (batchNum otNum) (rot2otRecvStep ot choices otNum) out

/-- The message of the choice. -/
def chosen (c : Bool) (msgs : Uint128 × Uint128) : Uint128 := if c then msgs.2 else msgs.1

/-- The first `k` entries of `out` are the chosen messages. -/
def Chosen (msgpairs : List (Uint128 × Uint128)) (choices : DynamicBitset) (k : ℕ)
    (out : List Uint128) : Prop :=
  ∀ i < k, out[i]? = msgpairs[i]?.map (chosen (choices.bit i))

theorem Chosen.set {msgpairs : List (Uint128 × Uint128)} {choices : DynamicBitset} {k : ℕ}
    {out : List Uint128} (h : Chosen msgpairs choices k out) (hk : k < out.length)
    {msgs : Uint128 × Uint128} (hmsgs : msgpairs[k]? = some msgs) :
    Chosen msgpairs choices (k + 1) (out.set k (chosen (choices.bit k) msgs)) := by
  intro i hi
  rw [List.getElem?_set]
  rcases Nat.lt_succ_iff_lt_or_eq.mp hi with hlt | rfl
  · rw [if_neg (by omega)]
    exact h i hlt
  · rw [if_pos rfl, if_pos hk, hmsgs]
    rfl

section Batch

variable {s : OtSendStore} {r : OtRecvStore} {n : ℕ} {msgpairs : List (Uint128 × Uint128)}
  {choices : DynamicBitset} {masked : ℕ → Bool}

/-- The masks of transfer `k` are those of its two blocks, in the order that the masked choice
says. -/
theorem rot2otMask_eq {i j : ℕ} {m : Bool → Uint128}
    (hm : ∀ b : Bool, s.getBlock (i * kBatchSize + j) b.toNat = .ok (m b))
    {msgs : Uint128 × Uint128} (hmsgs : msgpairs[i * kBatchSize + j]? = some msgs)
    (batchSend : ℕ → Uint128 × Uint128) :
    rot2otMask s masked msgpairs i j batchSend =
      .ok (Function.update batchSend j (m (masked (i * kBatchSize + j)) ^^^ msgs.1,
        m (!masked (i * kBatchSize + j)) ^^^ msgs.2)) := by
  have hm0 : s.getBlock (i * kBatchSize + j) 0 = .ok (m false) := hm false
  have hm1 : s.getBlock (i * kBatchSize + j) 1 = .ok (m true) := hm true
  rw [rot2otMask, vecGet_of_getElem? hmsgs, hm0, hm1]
  cases masked (i * kBatchSize + j) <;> rfl

variable (masked) in
/-- **One batch of the sender.** -/
theorem rot2otMaskBatch_eq (h : Ots .normal n s r) (hmsgs : msgpairs.length = n) (i : ℕ) :
    ∃ batch, rot2otMaskBatch s masked msgpairs n i = .ok batch ∧
      ∀ j < batchLimit n i, ∃ m : Bool → Uint128, ∃ msgs : Uint128 × Uint128,
        msgpairs[i * kBatchSize + j]? = some msgs ∧
        r.block (i * kBatchSize + j) = m (r.choice (i * kBatchSize + j)) ∧
        batch j = (m (masked (i * kBatchSize + j)) ^^^ msgs.1,
          m (!masked (i * kBatchSize + j)) ^^^ msgs.2) := by
  refine forLoop_ok (fun l (batch : ℕ → Uint128 × Uint128) => ∀ j < l, ∃ m : Bool → Uint128,
    ∃ msgs : Uint128 × Uint128, msgpairs[i * kBatchSize + j]? = some msgs ∧
      r.block (i * kBatchSize + j) = m (r.choice (i * kBatchSize + j)) ∧
      batch j = (m (masked (i * kBatchSize + j)) ^^^ msgs.1,
        m (!masked (i * kBatchSize + j)) ^^^ msgs.2)) (by omega) ?_
  intro l hl batch hbatch
  have hidx : i * kBatchSize + l < n := by
    rw [batchLimit] at hl
    omega
  obtain ⟨m, hm, hblock⟩ := h.baseOts.getBlock_eq _ (h.size_eq.symm ▸ hidx)
  have hget := List.getElem?_eq_getElem (hmsgs.symm ▸ hidx)
  refine ⟨_, rot2otMask_eq hm hget batch, fun j hj => ?_⟩
  rcases Nat.lt_succ_iff_lt_or_eq.mp hj with hlt | rfl
  · rw [Function.update_of_ne hlt.ne]
    exact hbatch j hlt
  · exact ⟨m, _, hget, hblock, by rw [Function.update_self]⟩

theorem pairBlock_chosen {batch : ℕ → Uint128 × Uint128} {j : ℕ} {m : Bool → Uint128} {d c : Bool}
    {msgs : Uint128 × Uint128} (h : batch j = (m (d ^^ c) ^^^ msgs.1, m (!(d ^^ c)) ^^^ msgs.2)) :
    pairBlock batch (2 * j + c.toNat) ^^^ m d = chosen c msgs := by
  have hdiv : (2 * j + c.toNat) / 2 = j := by have := c.toNat_le; omega
  rw [pairBlock, hdiv, h]
  cases c
  · rw [if_pos (by simp), chosen, Bool.xor_false]
    rw [if_neg Bool.false_ne_true, BitVec.xor_comm (m d), BitVec.xor_assoc, BitVec.xor_self,
      BitVec.xor_zero]
  · rw [if_neg (by simp), chosen, Bool.xor_true, Bool.not_not]
    rw [if_pos rfl, BitVec.xor_comm (m d), BitVec.xor_assoc, BitVec.xor_self,
      BitVec.xor_zero]

variable {out : List Uint128}

/-- **One batch of both parties** makes its transfers chosen ones. -/
theorem rot2otStep_session (h : Ots .normal n s r) (hmsgs : msgpairs.length = n)
    (hchoices : choices.size = n) (hmasked : ∀ k < n, masked k = (r.choice k ^^ choices.bit k))
    {i : ℕ} (hlen : n ≤ out.length) (hout : Chosen msgpairs choices (i * kBatchSize) out) :
    Session False (rot2otSendStep s masked msgpairs n i ()) (rot2otRecvStep r choices n i out)
      fun _ out' => out'.length = out.length ∧
        Chosen msgpairs choices (i * kBatchSize + batchLimit n i) out' := by
  obtain ⟨batch, hbatch, hpairs⟩ := rot2otMaskBatch_eq masked h hmsgs i
  obtain ⟨blocks, hcopy, hblocks⟩ :=
    memcpyZeroed_blockBytes (batchLimit n i * 2) (pairBlock batch)
  have hunmask : ∃ out', rot2otUnmaskBatch r choices blocks n i out = .ok out' ∧
      out'.length = out.length ∧
        Chosen msgpairs choices (i * kBatchSize + batchLimit n i) out' := by
    refine forLoop_ok (fun j o => o.length = out.length ∧
      Chosen msgpairs choices (i * kBatchSize + j) o) ⟨rfl, hout⟩ ?_
    rintro j hj o ⟨hl, ho⟩
    have hidx : i * kBatchSize + j < n := by
      rw [batchLimit] at hj
      omega
    obtain ⟨m, msgs, hget, hblock, hpair⟩ := hpairs j hj
    rw [hmasked _ hidx] at hpair
    have hc := (choices.bit (i * kBatchSize + j)).toNat_le
    refine ⟨_, ?_, ?_, ho.set (hl.symm ▸ hidx.trans_le hlen) hget⟩
    · rw [rot2otUnmask, DynamicBitset.test_of_lt (hchoices.symm ▸ hidx), ok_bind,
        OtRecvStore.getBlock_eq (h.size_eq.symm ▸ hidx), ok_bind, hblocks _ (by omega), hblock,
        pairBlock_chosen hpair, vecSet_of_lt (hl.symm ▸ hidx.trans_le hlen)]
    · rw [List.length_set, hl]
  obtain ⟨out', hloop, hdone⟩ := hunmask
  rw [rot2otSendStep, bind_of_ok hbatch]
  refine Session.send_recv ?_
  rw [bind_of_ok hcopy, hloop]
  exact .ret hdone

/-- The receiver sends its choices, masked by those of the random transfers; after that only the
loops over the batches are left. -/
theorem naiveRot2ot_exchange (h : Ots .normal n s r) (hlt : n < 2 ^ 32)
    (hmsgs : msgpairs.length = n) (hchoices : choices.size = n) {R : Unit → List Uint128 → Prop}
    (hloops : ∀ masked : ℕ → Bool, (∀ k < n, masked k = (r.choice k ^^ choices.bit k)) →
      Session False (forLoop (batchNum n) (rot2otSendStep s masked msgpairs n) ())
        (forLoop (batchNum n) (rot2otRecvStep r choices n) out) R) :
    Session False (naiveRot2otSend s msgpairs) (naiveRot2otRecv r choices out) R := by
  obtain ⟨copy, hcopy, hcsize, hbits⟩ := r.copyBitBuf_eq
  rw [h.size_eq] at hcsize hbits
  obtain ⟨masked, hmask, hmsize, hmbits⟩ := DynamicBitset.xor_eq (hcsize.trans hchoices.symm)
  rw [hcsize] at hmsize
  obtain ⟨blocks, hmem, hblocks⟩ := memcpyZeroed_bitsetBytes masked
  rw [hmsize] at hmem hblocks
  have hssize : s.size = msgpairs.length := by rw [h.baseOts.size_eq, h.size_eq, hmsgs]
  rw [naiveRot2otSend, naiveRot2otRecv, bind_enforce h.send_type, bind_enforce hssize,
    bind_enforce h.recv_type, bind_enforce (h.size_eq.trans hchoices.symm), bind_of_ok hcopy,
    bind_of_ok hmask, hmsgs, h.size_eq, Nat.mod_eq_of_lt hlt]
  refine .recv_send ?_
  rw [bind_of_ok hmem]
  refine hloops _ fun k hk => ?_
  rw [hblocks k hk, hmbits, hbits, decide_eq_true hk, Bool.true_and]

/-- **Chosen transfers.** If the number of batches does not wrap around, the receiver ends with
the message of its choice of every pair. -/
theorem naiveRot2ot_session (h : Ots .normal n s r) (hle : n ≤ 2 ^ 32 - 128)
    (hmsgs : msgpairs.length = n) (hchoices : choices.size = n) (hlen : n ≤ out.length) :
    Session False (naiveRot2otSend s msgpairs) (naiveRot2otRecv r choices out)
      fun _ out' => Chosen msgpairs choices n out' := by
  refine naiveRot2ot_exchange h (by omega) hmsgs hchoices fun masked hmasked => ?_
  -- before batch `i` the entries of the batches before it are done
  have hdone : ∀ i, min n (i * kBatchSize) + batchLimit n i = min n ((i + 1) * kBatchSize) := by
    intro i
    rw [batchLimit, kBatchSize]
    omega
  refine (Session.forLoop (fun i (_ : Unit) o => o.length = out.length ∧
    Chosen msgpairs choices (min n (i * kBatchSize)) o) ⟨rfl, by simp [Chosen]⟩ ?_).mono ?_
  · rintro i hi ⟨⟩ o ⟨hl, ho⟩
    have hin : i * kBatchSize ≤ n := by
      rw [batchNum_of_le hle] at hi
      rw [kBatchSize]
      omega
    rw [min_eq_right hin] at ho
    refine (rot2otStep_session h hmsgs hchoices hmasked (hl.symm ▸ hlen) ho).mono ?_
    rintro - o' ⟨hl', ho'⟩
    rw [← hdone i, min_eq_right hin]
    exact ⟨hl'.trans hl, ho'⟩
  · rintro - o ⟨-, ho⟩
    rwa [min_eq_left (by rw [batchNum_of_le hle, kBatchSize]; omega)] at ho

/-- **No batch at all.** For the last 127 numbers of transfers below `2 ^ 32` both parties return
after the masked choices, and the receiver's messages are those it came with. -/
theorem naiveRot2ot_large (h : Ots .normal n s r) (hlarge : 2 ^ 32 - 128 < n) (hlt : n < 2 ^ 32)
    (hmsgs : msgpairs.length = n) (hchoices : choices.size = n) (out : List Uint128) :
    Session False (naiveRot2otSend s msgpairs) (naiveRot2otRecv r choices out)
      fun _ out' => out' = out := by
  refine naiveRot2ot_exchange h hlt hmsgs hchoices fun masked _ => ?_
  rw [batchNum_of_large hlarge hlt]
  exact .ret rfl

end Batch

end OtKernel

/-! ### The kernel -/

/-- `OtKernel::ExtAlgorithm`. -/
inductive ExtAlgorithm where
  | softSpoken
  | ferret
  deriving DecidableEq, Repr

/-- The extensions that a kernel can run, with the objects of the SoftSpoken extension. -/
structure OtExtension (SsSender SsReceiver : Type) where
  /-- `FerretOtExtSend` with the default parameter. -/
  ferretOtExtSend : OtSendStore → ℕ → Party OtSendStore
  /-- `FerretOtExtRecv` with the default parameter. -/
  ferretOtExtRecv : OtRecvStore → ℕ → Party OtRecvStore
  /-- `SoftspokenOtExtSender::Send`. -/
  send : SsSender → OtSendStore → Party (SsSender × OtSendStore)
  /-- `SoftspokenOtExtReceiver::Recv`. -/
  recv : SsReceiver → DynamicBitset → OtRecvStore → Party (SsReceiver × OtRecvStore)

/-- `OtKernel`; a variant without a value is `none`. -/
structure OtKernel (SsSender SsReceiver : Type) where
  /-- `ext_algorithm_`. -/
  extAlgorithm : ExtAlgorithm
  /-- `inited_`. -/
  inited : Bool
  /-- `init_ot_cache_`. -/
  initOtCache : Option (OtSendStore ⊕ OtRecvStore)
  /-- `ss_core_`. -/
  ssCore : Option (SsSender ⊕ SsReceiver)

namespace OtKernel

variable {SsSender SsReceiver : Type} (T : Tools) (ext : OtExtension SsSender SsReceiver)

/-- `eval_cot_random_choice` of the sender; the result is the kernel and `out` after the call. -/
def evalCotRandomChoiceSend (self : OtKernel SsSender SsReceiver) (otNum : ℕ) (out : OtSendStore) :
    Party (OtKernel SsSender SsReceiver × OtSendStore) := do
  enforce (otNum = out.size) "ot_num == out->Size()" ""
  enforce (out.isSliced = false) "!out->IsSliced()" ""
  enforce (self.inited = true) "inited_" ""
  enforce (out.type = .compact) "out->Type() == OtStoreType::Compact" ""
  match self.extAlgorithm, self.initOtCache, self.ssCore with
  | .ferret, some (.inl cache), _ => return (self, ← ext.ferretOtExtSend cache otNum)
  | .ferret, _, _ =>
    .throw (.enforceNotMet "std::holds_alternative<OtSendStore>(init_ot_cache_)" "")
  | .softSpoken, _, some (.inl core) =>
    let res ← ext.send core out
    return ({ self with ssCore := some (.inl res.1) }, res.2)
  | .softSpoken, _, _ =>
    .throw (.enforceNotMet "std::holds_alternative<SoftspokenOtExtSender>(ss_core_)" "")

/-- `eval_cot_random_choice` of the receiver, with the choices that `SecureRandBits` draws. -/
def evalCotRandomChoiceRecv (self : OtKernel SsSender SsReceiver) (choices : DynamicBitset)
    (otNum : ℕ) (out : OtRecvStore) : Party (OtKernel SsSender SsReceiver × OtRecvStore) := do
  enforce (otNum = out.size) "ot_num == out->Size()" ""
  enforce (out.isSliced = false) "!out->IsSliced()" ""
  enforce (out.type = .compact) "out->Type() == OtStoreType::Compact" ""
  enforce (self.inited = true) "inited_" ""
  enforce (out.type = .compact) "out->Type() == OtStoreType::Compact" ""
  match self.extAlgorithm, self.initOtCache, self.ssCore with
  | .ferret, some (.inr cache), _ => return (self, ← ext.ferretOtExtRecv cache otNum)
  | .ferret, _, _ =>
    .throw (.enforceNotMet "std::holds_alternative<OtRecvStore>(init_ot_cache_)" "")
  | .softSpoken, _, some (.inr core) =>
    let res ← ext.recv core choices out
    return ({ self with ssCore := some (.inr res.1) }, res.2)
  | .softSpoken, _, _ =>
    .throw (.enforceNotMet "std::holds_alternative<SoftspokenOtExtReceiver>(ss_core_)" "")

/-- `eval_rot` of the sender. -/
def evalRotSend (self : OtKernel SsSender SsReceiver) (otNum : ℕ) (out : OtSendStore) :
    Party (OtKernel SsSender SsReceiver × OtSendStore) := do
  enforce (otNum = out.size) "ot_num == out->Size()" ""
  enforce (out.isSliced = false) "!out->IsSliced()" ""
  enforce (out.type = .normal) "out->Type() == OtStoreType::Normal" ""
  let cot ← OtSendStore.ofNum otNum .compact
  let res ← evalCotRandomChoiceSend ext self otNum cot
  let out ← naiveCot2rotSend T res.2 out
  return (res.1, out)

/-- `eval_rot` of the receiver. -/
def evalRotRecv (self : OtKernel SsSender SsReceiver) (choices : DynamicBitset) (otNum : ℕ)
    (out : OtRecvStore) : Party (OtKernel SsSender SsReceiver × OtRecvStore) := do
  enforce (otNum = out.size) "ot_num == out->Size()" ""
  enforce (out.isSliced = false) "!out->IsSliced()" ""
  enforce (out.type = .normal) "out->Type() == OtStoreType::Normal" ""
  let cot ← OtRecvStore.ofNum otNum .compact
  let res ← evalCotRandomChoiceRecv ext self choices otNum cot
  let out ← naiveCot2rotRecv T res.2 out
  return (res.1, out)

/-- **Matching kernels.** Both are set up for the same extension, and this extension gives them
correct compact transfers. -/
inductive Matching (n : ℕ) (choices : DynamicBitset) :
    OtKernel SsSender SsReceiver → OtKernel SsSender SsReceiver → Prop
  | ferret {s r ss sr}
      (h : Completes (ext.ferretOtExtSend s n) (ext.ferretOtExtRecv r n) (Ots .compact n)) :
      Matching n choices ⟨.ferret, true, some (.inl s), ss⟩ ⟨.ferret, true, some (.inr r), sr⟩
  | softSpoken {s r cs cr}
      (h : ∀ out out', OtSendStore.ofNum n .compact = .ok out →
        OtRecvStore.ofNum n .compact = .ok out' →
        Completes (ext.send s out) (ext.recv r choices out') fun a b => Ots .compact n a.2 b.2) :
      Matching n choices ⟨.softSpoken, true, cs, some (.inl s)⟩
        ⟨.softSpoken, true, cr, some (.inr r)⟩

variable {n : ℕ} {choices : DynamicBitset} {ks kr : OtKernel SsSender SsReceiver}

theorem evalCotRandomChoice_session (hk : Matching ext n choices ks kr) {out : OtSendStore}
    {out' : OtRecvStore} (hpos : 0 < n) (hout : OtSendStore.ofNum n .compact = .ok out)
    (hout' : OtRecvStore.ofNum n .compact = .ok out') :
    Session False (evalCotRandomChoiceSend ext ks n out)
      (evalCotRandomChoiceRecv ext kr choices n out') fun a b => Ots .compact n a.2 b.2 := by
  obtain ⟨s0, hs, hsliced, hsize, htype⟩ := OtSendStore.ofNum_compact hpos
  obtain rfl : s0 = out := Except.ok.inj (hs.symm.trans hout)
  obtain ⟨r0, hr, hsliced', hsize', htype'⟩ := OtRecvStore.ofNum_compact hpos
  obtain rfl : r0 = out' := Except.ok.inj (hr.symm.trans hout')
  rw [evalCotRandomChoiceSend, evalCotRandomChoiceRecv, bind_enforce hsize.symm,
    bind_enforce hsliced, bind_enforce htype, bind_enforce hsize'.symm, bind_enforce hsliced',
    bind_enforce htype', bind_enforce htype']
  cases hk with
  | ferret h => exact h.session.bind fun a b hab => .ret hab
  | softSpoken h => exact (h s0 r0 hs hr).session.bind fun a b hab => .ret hab

/-- **Random transfers.** Matching kernels complete with correct random transfers. -/
theorem evalRot_session (hpos : 0 < n) (hlt : n < 2 ^ 32) (hk : Matching ext n choices ks kr)
    {out : OtSendStore} {out' : OtRecvStore} (hout : OtSendStore.ofNum n .normal = .ok out)
    (hout' : OtRecvStore.ofNum n .normal = .ok out') :
    Session False (evalRotSend T ext ks n out) (evalRotRecv T ext kr choices n out')
      fun a b => Ots .normal n a.2 b.2 := by
  obtain ⟨s0, hs, hsliced, -, huse, htype, -⟩ := OtSendStore.ofNum_normal hpos (by omega)
  obtain rfl : s0 = out := Except.ok.inj (hs.symm.trans hout)
  obtain ⟨r0, hr, hsliced', -, huse', htype', -⟩ := OtRecvStore.ofNum_normal hpos
  obtain rfl : r0 = out' := Except.ok.inj (hr.symm.trans hout')
  have hsize : n = s0.size := by
    rw [OtSendStore.size, htype, huse]
    exact (Nat.mul_div_cancel n (by omega)).symm
  have hsize' : n = r0.size := huse'.symm
  obtain ⟨cots, hcots, -⟩ := OtSendStore.ofNum_compact hpos
  obtain ⟨cotr, hcotr, -⟩ := OtRecvStore.ofNum_compact hpos
  rw [evalRotSend, evalRotRecv, bind_enforce hsize, bind_enforce hsliced, bind_enforce htype,
    bind_of_ok hcots, bind_enforce hsize', bind_enforce hsliced', bind_enforce htype',
    bind_of_ok hcotr]
  refine (evalCotRandomChoice_session ext hk hpos hcots hcotr).bind fun a b hab => ?_
  obtain ⟨s, r, hsend, hrecv, hots⟩ := naiveCot2rot_ots T hpos hlt hab hs hr
  rw [bind_of_ok hsend, bind_of_ok hrecv]
  exact .ret hots

/-! ### Correctness for a number of transfers -/

/-- The receiver's block is the one of the sender's two blocks that its choice selects. -/
def Agree (s : OtSendStore) (r : OtRecvStore) (i : ℕ) : Prop :=
  ∃ c x, r.getChoice i = .ok c ∧ s.getBlock i c.toNat = .ok x ∧ r.getBlock i = .ok x

theorem agree_of_ots {type : OtStoreType} {s : OtSendStore} {r : OtRecvStore} (h : Ots type n s r)
    {i : ℕ} (hi : i < n) : Agree s r i := by
  have hir : i < r.size := h.size_eq.symm ▸ hi
  obtain ⟨m, hm, hblock⟩ := h.baseOts.getBlock_eq i hir
  refine ⟨r.choice i, r.block i, OtRecvStore.getChoice_eq hir, ?_, OtRecvStore.getBlock_eq hir⟩
  rw [hm, hblock]

/-- **`eval_rot` is correct for `n` transfers**: any two matching kernels complete with random
transfers, in new stores of which the receiver's blocks agree with the sender's. -/
def EvalRotCorrect (n : ℕ) : Prop :=
  ∀ (SsSender SsReceiver : Type) (ext : OtExtension SsSender SsReceiver) (choices : DynamicBitset)
    (ks kr : OtKernel SsSender SsReceiver) (out : OtSendStore) (out' : OtRecvStore),
    choices.size = n → Matching ext n choices ks kr → OtSendStore.ofNum n .normal = .ok out →
    OtRecvStore.ofNum n .normal = .ok out' →
    Completes (evalRotSend T ext ks n out) (evalRotRecv T ext kr choices n out')
      fun a b => Ots .normal n a.2 b.2 ∧ ∀ i < n, Agree a.2 b.2 i

/-- **`naive_rot2ot` is correct for `n` transfers**: from correct random transfers the receiver
gets the message of its choice of every pair. -/
def Rot2otCorrect (n : ℕ) : Prop :=
  ∀ (s : OtSendStore) (r : OtRecvStore) (msgpairs : List (Uint128 × Uint128))
    (choices : DynamicBitset) (out : List Uint128),
    Ots .normal n s r → msgpairs.length = n → choices.size = n → out.length = n →
    Completes (naiveRot2otSend s msgpairs) (naiveRot2otRecv r choices out)
      fun _ out' => ∀ i < n, out'[i]? = msgpairs[i]?.map (chosen (choices.bit i))

theorem exists_ots_normal (hpos : 0 < n) (hlt : n < 2 ^ 63) : ∃ s r, Ots .normal n s r := by
  set msgs : List (Uint128 × Uint128) := List.replicate n (0, 0)
  have hlen : msgs.length = n := List.length_replicate
  obtain ⟨s, r, hmock, hbase, hsize, -⟩ :=
    mockRots_baseOts msgs (.ofSize n) hlen.symm (by omega) (by omega)
  exact ⟨s, r, (mockRots_type hmock).1, (mockRots_type hmock).2, hsize.trans hlen, hbase⟩

/-- So do correlated ones, and kernels that match because their extension hands them out. -/
theorem exists_matching (hpos : 0 < n) (hlt : n < 2 ^ 64) (choices : DynamicBitset) :
    ∃ (ext : OtExtension Unit Unit) (ks kr : OtKernel Unit Unit),
      Matching ext n choices ks kr := by
  set msgs : List Uint128 := List.replicate n 0
  have hlen : msgs.length = n := List.length_replicate
  obtain ⟨s, r, hmock, hbase, hsize, -⟩ := mockCompactOts_baseOts msgs 0 (by omega) (by omega)
  have hots : Ots .compact n s r :=
    ⟨(mockCompactOts_type hmock).1, (mockCompactOts_type hmock).2, hsize.trans hlen, hbase⟩
  exact ⟨⟨fun cache _ => .ret cache, fun cache _ => .ret cache, fun core out => .ret (core, out),
    fun core _ out => .ret (core, out)⟩, ⟨.ferret, true, some (.inl s), none⟩,
    ⟨.ferret, true, some (.inr r), none⟩, .ferret (Session.ret hots).completes⟩

/-- With an entry of `out` that no message is equal to, the missing batches show. -/
theorem not_rot2otCorrect (hlarge : 2 ^ 32 - 128 < n) (hlt : n < 2 ^ 32) : ¬Rot2otCorrect n := by
  intro h
  obtain ⟨s, r, hots⟩ := exists_ots_normal (n := n) (by omega) (by omega)
  have hcomp := h s r (List.replicate n (0, 0)) (.ofSize n) (List.replicate n 1) hots
    List.length_replicate rfl List.length_replicate
  obtain ⟨_, out, hchosen, rfl⟩ := hcomp.exists_of_session
    (naiveRot2ot_large hots hlarge hlt List.length_replicate rfl _)
  have h0 := hchosen 0 (by omega)
  rw [List.getElem?_replicate, List.getElem?_replicate, if_pos (by omega)] at h0
  simp [chosen] at h0

/-- **The OT kernel.** `eval_rot` and `naive_rot2ot` are both correct for a number of transfers
below `2 ^ 32` exactly if rounding it up to a multiple of the batch size stays below `2 ^ 32`. -/
theorem otKernel_correct_iff {n : ℕ} (hpos : 0 < n) (hlt : n < 2 ^ 32) :
    (EvalRotCorrect T n ∧ Rot2otCorrect n) ↔ n ≤ 2 ^ 32 - 128 := by
  constructor
  · rintro ⟨-, h⟩
    by_contra hle
    exact not_rot2otCorrect (by omega) hlt h
  · intro hle
    constructor
    · intro _ _ ext choices ks kr out out' _ hk hout hout'
      exact ((evalRot_session T ext hpos hlt hk hout hout').mono
        fun a b hab => ⟨hab, fun i hi => agree_of_ots hab hi⟩).completes
    · intro s r msgpairs choices out hots hmsgs hchoices hlen
      exact (naiveRot2ot_session hots hle hmsgs hchoices hlen.ge).completes

/-- Two batches, of which the second has two transfers, and kernels that match. -/
theorem otKernel_correct_iff_130 :
    EvalRotCorrect default 130 ∧ Rot2otCorrect 130 ∧
      ∃ (ext : OtExtension Unit Unit) (ks kr : OtKernel Unit Unit),
        Matching ext 130 (.ofSize 130) ks kr := by
  obtain ⟨hrot, hot⟩ :=
    (otKernel_correct_iff default (n := 130) (by omega) (by omega)).mpr (by omega)
  exact ⟨hrot, hot, exists_matching (by omega) (by omega) _⟩

/-- The least number of transfers for which no batch is sent. -/
theorem not_otKernel_correct_large :
    ¬(EvalRotCorrect default (2 ^ 32 - 127) ∧ Rot2otCorrect (2 ^ 32 - 127)) := by
  rintro ⟨-, h⟩
  exact not_rot2otCorrect (by omega) (by omega) h

end OtKernel

end Yacl.Crypto
