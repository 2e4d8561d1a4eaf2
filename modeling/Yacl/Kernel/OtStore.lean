import Mathlib.Data.LawfulXor.Basic
import Yacl.Base.DynamicBitset
import Yacl.Base.Method
import Yacl.Lib.Tiling

/-!
# Stores of oblivious transfers

The model of `OtRecvStore` and `OtSendStore` of `yacl/kernel/type/ot_store.h` and of their base
`SliceBase`. A store is a window into a buffer of blocks, with a counter for the part of the
window that `NextSlice` has given away. A receiver's store holds one block and one choice bit
for every transfer; the bits are in a bit set of their own (**normal**) or are the low bits of the
blocks (**compact**). A sender's store holds two blocks (normal), or one block whose partner
differs from it by a common `delta` (compact).

The structures carry what `ConsistencyCheck` establishes when a store is made, and that the
window lies in the buffer, so that reads of a receiver's store always succeed
(`OtRecvStore.getBlock_eq`, `OtRecvStore.getChoice_eq`). In the source the windows share their
buffer; here every window has its own copy, since no modelled function writes through one
window and reads through another.

`BaseOts` is what the protocols need of their base transfers: the receiver's block is the
sender's block of the receiver's choice.
-/

open Bits Loop Tiling

namespace Yacl.Crypto

/-! ### Windows -/

/-- The counters of `SliceBase`, in blocks. A store sees only its window of the buffer; its slices
come one after the other. The constructor checks the bounds, so they are fields here. -/
structure SliceBase where
  /-- `internal_use_ctr_`: where the window begins. -/
  useCtr : ℕ
  /-- `internal_use_size_`: the size of the window. -/
  useSize : ℕ
  /-- `internal_buf_ctr_`: where the next slice begins. -/
  bufCtr : ℕ
  /-- `internal_buf_size_`: where the last slice has to end. -/
  bufSize : ℕ
  useSize_pos : 0 < useSize
  use_le : useCtr + useSize ≤ bufSize
  bufCtr_le : bufCtr ≤ bufSize
  deriving Repr, DecidableEq

namespace SliceBase

/-- `InitCtrs`, with the checks of `ConsistencyCheck`. A window that does not lie in the buffer
passes the checks of the source; its accesses are undefined, and no caller makes one. -/
def initCtrs (useCtr useSize bufCtr bufSize : ℕ) : Except Exception SliceBase := do
  let hpos ← enforceProof (0 < useSize) "internal_use_size_ > 0"
    s!"Internal slice size shoud be greater than 0, but got slice size: {useSize}"
  enforce (0 < bufSize) "internal_buf_size_ > 0"
    s!"Internal buffer size shoud be greater than 0, but got buffer size: {bufSize}"
  enforce (useSize ≤ bufSize) "internal_buf_size_ >= internal_use_size_"
    s!"Buffer size should great or equal to slice size, got {bufSize} >= {useSize}"
  let hctr ← enforceProof (bufCtr ≤ bufSize) "internal_buf_size_ >= internal_buf_ctr_"
    "Slice out of range!"
  if hle : useCtr + useSize ≤ bufSize then
    pure ⟨useCtr, useSize, bufCtr, bufSize, hpos.down, hle, hctr.down⟩
  else throw .undefinedBehaviour

theorem initCtrs_eq {useCtr useSize bufCtr bufSize : ℕ} (hpos : 0 < useSize)
    (hle : useCtr + useSize ≤ bufSize) (hctr : bufCtr ≤ bufSize) :
    initCtrs useCtr useSize bufCtr bufSize =
      .ok ⟨useCtr, useSize, bufCtr, bufSize, hpos, hle, hctr⟩ := by
  rw [initCtrs, enforceProof_of_pos hpos, ok_bind, enforce_bind (by omega), enforce_bind (by omega),
    enforceProof_of_pos hctr, ok_bind, dif_pos hle]
  rfl

variable {s : SliceBase}

theorem of_initCtrs {useCtr useSize bufCtr bufSize : ℕ}
    (h : initCtrs useCtr useSize bufCtr bufSize = .ok s) :
    s.useCtr = useCtr ∧ s.useSize = useSize ∧ s.bufCtr = bufCtr ∧ s.bufSize = bufSize := by
  obtain ⟨_, -, h⟩ := of_bind_eq_ok h
  obtain ⟨-, h⟩ := of_enforce_bind h
  obtain ⟨-, h⟩ := of_enforce_bind h
  obtain ⟨_, -, h⟩ := of_bind_eq_ok h
  split at h
  · rw [← Except.ok.inj h]
    exact ⟨rfl, rfl, rfl, rfl⟩
  · contradiction

/-- The window of a store in its buffer. -/
def window (s : SliceBase) : Piece := ⟨s.useCtr, s.useSize⟩

/-- `IsSliced`. -/
def isSliced (s : SliceBase) : Bool := s.bufCtr ≠ 0

/-- `GetBufIdx`. -/
def getBufIdx (s : SliceBase) (sliceIdx : ℕ) : Except Exception ℕ := do
  enforce (sliceIdx < s.useSize) "internal_use_size_ > slice_idx"
    s!"Slice index out of range, slice size: {s.useSize}, but got index: {sliceIdx}"
  pure (s.useCtr + sliceIdx)

theorem getBufIdx_eq {sliceIdx : ℕ} (h : sliceIdx < s.useSize) :
    s.getBufIdx sliceIdx = .ok (s.useCtr + sliceIdx) := by
  rw [getBufIdx, enforce_of_pos h]
  rfl

theorem of_getBufIdx {sliceIdx i : ℕ} (h : s.getBufIdx sliceIdx = .ok i) :
    sliceIdx < s.useSize ∧ i = s.useCtr + sliceIdx :=
  (of_enforce_bind h).imp id fun h => (Except.ok.inj h).symm

/-- The check of `IncreaseBufCtr`. -/
def increaseBufCtr (s : SliceBase) (size : ℕ) :
    Except Exception (PLift (s.bufCtr + size ≤ s.bufSize)) :=
  enforceProof (s.bufCtr + size ≤ s.bufSize) "internal_buf_size_ - internal_buf_ctr_ >= size"
    (s!"Increase buffer counter failed, not enough space, buffer left space: " ++
      s!"{s.bufSize - s.bufCtr}, but tried increase with size: {size}")

end SliceBase

/-- `a - b` of two `uint64_t`. -/
def sub64 (a b : ℕ) : ℕ := (a + 2 ^ 64 - b) % 2 ^ 64

variable {b : ℕ}

theorem sub64_of_le {a : ℕ} (h : b ≤ a) (ha : a < 2 ^ 64) : sub64 a b = a - b := by
  rw [sub64]
  omega

/-- `OtStoreType`. -/
inductive OtStoreType where
  | normal
  | compact
  deriving DecidableEq, Repr

/-! ### The receiver's store -/

/-- `OtRecvStore`: the choice bits and the chosen blocks. A compact store has a choice in the lowest
bit of each block. -/
structure OtRecvStore extends SliceBase where
  /-- `type_`. -/
  type : OtStoreType
  /-- `bit_buf_`; not used by a compact store. -/
  bitBuf : DynamicBitset
  /-- `blk_buf_`. -/
  blkBuf : List Uint128
  bufSize_le : bufSize ≤ blkBuf.length
  bitBuf_size : type = .normal → bitBuf.size = blkBuf.length

namespace OtRecvStore

/-- The constructor from buffers and counters. -/
def init (bitBuf : DynamicBitset) (blkBuf : List Uint128) (useCtr useSize bufCtr bufSize : ℕ)
    (type : OtStoreType) : Except Exception OtRecvStore := do
  let s ← SliceBase.initCtrs useCtr useSize bufCtr bufSize
  let hbuf ← enforceProof (s.bufSize ≤ blkBuf.length) "blk_buf_->size() >= internal_buf_size_"
    (s!"Actual buffer size: {blkBuf.length}, but recorded internal buffer size is: " ++
      s!"{s.bufSize}")
  let hbit ← enforceProof (type = .normal → bitBuf.size = blkBuf.length)
    "bit_buf_->size() == blk_buf_->size()" s!"{bitBuf.size} vs {blkBuf.length}"
  pure ⟨s, type, bitBuf, blkBuf, hbuf.down, hbit.down⟩

variable {bitBuf : DynamicBitset} {blkBuf : List Uint128} {useCtr useSize bufCtr bufSize : ℕ}
  {type : OtStoreType}

theorem init_eq (hpos : 0 < useSize) (hle : useCtr + useSize ≤ bufSize) (hctr : bufCtr ≤ bufSize)
    (hbuf : bufSize ≤ blkBuf.length) (hbit : type = .normal → bitBuf.size = blkBuf.length) :
    init bitBuf blkBuf useCtr useSize bufCtr bufSize type =
      .ok ⟨⟨useCtr, useSize, bufCtr, bufSize, hpos, hle, hctr⟩, type, bitBuf, blkBuf, hbuf,
        hbit⟩ := by
  rw [init, SliceBase.initCtrs_eq hpos hle hctr, ok_bind, enforceProof_of_pos hbuf,
    enforceProof_of_pos hbit]
  rfl

variable {s : OtRecvStore}

theorem of_init (h : init bitBuf blkBuf useCtr useSize bufCtr bufSize type = .ok s) :
    (s.useCtr = useCtr ∧ s.useSize = useSize ∧ s.bufCtr = bufCtr ∧ s.bufSize = bufSize) ∧
      s.type = type ∧ s.bitBuf = bitBuf ∧ s.blkBuf = blkBuf := by
  obtain ⟨_, hctrs, h⟩ := of_bind_eq_ok h
  obtain ⟨_, -, h⟩ := of_bind_eq_ok h
  obtain ⟨_, -, h⟩ := of_bind_eq_ok h
  rw [← Except.ok.inj h]
  exact ⟨SliceBase.of_initCtrs hctrs, rfl, rfl, rfl⟩

theorem type_of_init (h : init bitBuf blkBuf useCtr useSize bufCtr bufSize type = .ok s) :
    s.type = type :=
  (of_init h).2.1

/-- The constructor of an empty store for `num` transfers. -/
def ofNum (num : ℕ) (type : OtStoreType) : Except Exception OtRecvStore :=
  init (if type = .normal then .ofSize num else .ofSize 0) (List.replicate num 0) 0 num 0 num type

/-- `Slice`; the indexes count from the beginning of the buffer. -/
def slice (s : OtRecvStore) (begin_ end_ : ℕ) : Except Exception OtRecvStore :=
  init s.bitBuf s.blkBuf begin_ (sub64 end_ begin_) begin_ end_ s.type

/-- `NextSlice`. -/
def nextSlice (num : ℕ) : Method OtRecvStore OtRecvStore := do
  let s ← get
  let out ← s.slice s.bufCtr ((s.bufCtr + num) % 2 ^ 64)
  let h ← s.toSliceBase.increaseBufCtr num
  set { s with bufCtr := s.bufCtr + num, bufCtr_le := h.down }
  return out

/-- `Size`. -/
def size (s : OtRecvStore) : ℕ := s.useSize

/-- `GetBlock`. -/
def getBlock (s : OtRecvStore) (idx : ℕ) : Except Exception Uint128 := do
  enforce (idx < s.useSize) "idx < GetUseSize()" ""
  vecGet s.blkBuf (← s.toSliceBase.getBufIdx idx)

/-- `SetBlock`. -/
def setBlock (s : OtRecvStore) (idx : ℕ) (val : Uint128) : Except Exception OtRecvStore := do
  let i ← s.toSliceBase.getBufIdx idx
  pure { s with
    blkBuf := s.blkBuf.set i val
    bufSize_le := by rw [List.length_set]; exact s.bufSize_le
    bitBuf_size := by rw [List.length_set]; exact s.bitBuf_size }

/-- `SetBitBuf`. The source does not check the size of the new buffer; a normal store whose two
buffers have different sizes is not a store, and is never made by its callers. -/
def setBitBuf (s : OtRecvStore) (bits : DynamicBitset) : Except Exception OtRecvStore :=
  if h : s.type = .normal → bits.size = s.blkBuf.length then
    pure { s with bitBuf := bits, bitBuf_size := h }
  else throw .undefinedBehaviour

/-- `GetChoice`. -/
def getChoice (s : OtRecvStore) (idx : ℕ) : Except Exception Bool := do
  enforce (idx < s.useSize) "idx < GetUseSize()"
    s!"required idx={idx} is larger than the allowed use size={s.useSize}"
  match s.type with
  | .compact => return (← vecGet s.blkBuf (← s.toSliceBase.getBufIdx idx)).getLsbD 0
  | .normal => s.bitBuf.test (← s.toSliceBase.getBufIdx idx)

/-- The body of the loop of `CopyBitBuf`. -/
def copyBit (s : OtRecvStore) (i : ℕ) (out : DynamicBitset) : Except Exception DynamicBitset := do
  let b ← s.getBlock i
  if h : i < out.size then pure (out.set i (b.getLsbD 0) h) else throw .undefinedBehaviour

/-- `CopyBitBuf`. -/
def copyBitBuf (s : OtRecvStore) : Except Exception DynamicBitset :=
  match s.type with
  | .compact => forLoop s.size s.copyBit (.ofSize s.size)
  | .normal => pure ((s.bitBuf.shiftRight s.useCtr).resize s.useSize)

/-- `CopyBlkBuf`. -/
def copyBlkBuf (s : OtRecvStore) : List Uint128 := (s.blkBuf.drop s.useCtr).take s.useSize

/-- The block of transfer `idx`. -/
def block (s : OtRecvStore) (idx : ℕ) : Uint128 := s.blkBuf.getD (s.useCtr + idx) 0

/-- The choice bit of transfer `idx`. -/
def choice (s : OtRecvStore) (idx : ℕ) : Bool :=
  match s.type with
  | .compact => (s.block idx).getLsbD 0
  | .normal => s.bitBuf.bit (s.useCtr + idx)

theorem choice_eq_ite (s : OtRecvStore) (idx : ℕ) :
    s.choice idx =
      if s.type = .compact then (s.block idx).getLsbD 0 else s.bitBuf.bit (s.useCtr + idx) := by
  rw [choice]
  cases s.type <;> rfl

variable {idx : ℕ}

theorem blkBuf_getElem? (h : idx < s.size) : s.blkBuf[s.useCtr + idx]? = some (s.block idx) := by
  have hlt : s.useCtr + idx < s.blkBuf.length := by
    have h1 := s.use_le
    have h2 := s.bufSize_le
    rw [size] at h
    omega
  rw [block, List.getD_eq_getElem?_getD, List.getElem?_eq_getElem hlt, Option.getD_some]

theorem getBlock_eq (h : idx < s.size) : s.getBlock idx = .ok (s.block idx) := by
  have huse : idx < s.useSize := h
  rw [getBlock, enforce_bind huse, SliceBase.getBufIdx_eq huse]
  exact vecGet_of_getElem? (blkBuf_getElem? h)

theorem getChoice_eq (h : idx < s.size) : s.getChoice idx = .ok (s.choice idx) := by
  have huse : idx < s.useSize := h
  rw [getChoice, enforce_bind huse, choice]
  cases htype : s.type with
  | compact =>
    rw [SliceBase.getBufIdx_eq huse, ok_bind, vecGet_of_getElem? (blkBuf_getElem? h)]
    rfl
  | normal =>
    have h1 := s.use_le
    have h2 := s.bufSize_le
    have h3 := s.bitBuf_size htype
    rw [SliceBase.getBufIdx_eq huse]
    exact DynamicBitset.test_of_lt (by omega)

/-- **`CopyBitBuf`** copies the choices of the window, and no others. -/
theorem copyBitBuf_eq (s : OtRecvStore) :
    ∃ out, s.copyBitBuf = .ok out ∧ out.size = s.size ∧
      ∀ i, out.bit i = (decide (i < s.size) && s.choice i) := by
  rw [copyBitBuf]
  cases htype : s.type with
  | compact =>
    have hchoice : ∀ i, s.choice i = (s.block i).getLsbD 0 := fun i => by rw [choice, htype]
    refine forLoop_ok (fun j (out : DynamicBitset) => out.size = s.size ∧
      ∀ i, out.bit i = (decide (i < j) && s.choice i)) ⟨rfl, fun i => ?_⟩ ?_
    · rw [DynamicBitset.bit_ofSize, decide_eq_false (by omega), Bool.false_and]
    · rintro j hj out ⟨hsize, hbits⟩
      refine ⟨out.set j ((s.block j).getLsbD 0) (hsize ▸ hj), ?_, hsize, fun i => ?_⟩
      · rw [copyBit, getBlock_eq hj, ok_bind, dif_pos (hsize ▸ hj)]
        rfl
      · rw [DynamicBitset.bit_set, hbits, hchoice]
        by_cases hij : i = j
        · simp [hij]
        · rw [if_neg hij, decide_eq_decide.mpr (show i < j ↔ i < j + 1 by omega)]
  | normal =>
    refine ⟨_, rfl, rfl, fun i => ?_⟩
    rw [DynamicBitset.bit_resize, DynamicBitset.bit_shiftRight, choice, htype, Nat.add_comm, size]

end OtRecvStore

/-! ### The sender's store -/

/-- `OtSendStore`: two blocks for each transfer, or one in a compact store, where the other one is
its exclusive-or with `delta`. -/
structure OtSendStore extends SliceBase where
  /-- `type_`. -/
  type : OtStoreType
  /-- `delta_`, zero for random transfers. -/
  delta : Uint128
  /-- `blk_buf_`. -/
  blkBuf : List Uint128
  bufSize_le : bufSize ≤ blkBuf.length

namespace OtSendStore

/-- The constructor from a buffer and counters. -/
def init (blkBuf : List Uint128) (delta : Uint128) (useCtr useSize bufCtr bufSize : ℕ)
    (type : OtStoreType) : Except Exception OtSendStore := do
  let s ← SliceBase.initCtrs useCtr useSize bufCtr bufSize
  let hbuf ← enforceProof (s.bufSize ≤ blkBuf.length) "blk_buf_->size() >= internal_buf_size_"
    (s!"Actual buffer size: {blkBuf.length}, but recorded internal buffer size is: " ++
      s!"{s.bufSize}")
  pure ⟨s, type, delta, blkBuf, hbuf.down⟩

variable {blkBuf : List Uint128} {delta : Uint128} {useCtr useSize bufCtr bufSize : ℕ}
  {type : OtStoreType}

theorem init_eq (hpos : 0 < useSize) (hle : useCtr + useSize ≤ bufSize) (hctr : bufCtr ≤ bufSize)
    (hbuf : bufSize ≤ blkBuf.length) :
    init blkBuf delta useCtr useSize bufCtr bufSize type =
      .ok ⟨⟨useCtr, useSize, bufCtr, bufSize, hpos, hle, hctr⟩, type, delta, blkBuf, hbuf⟩ := by
  rw [init, SliceBase.initCtrs_eq hpos hle hctr, ok_bind, enforceProof_of_pos hbuf]
  rfl

variable {s : OtSendStore}

theorem of_init (h : init blkBuf delta useCtr useSize bufCtr bufSize type = .ok s) :
    (s.useCtr = useCtr ∧ s.useSize = useSize ∧ s.bufCtr = bufCtr ∧ s.bufSize = bufSize) ∧
      s.type = type ∧ s.delta = delta ∧ s.blkBuf = blkBuf := by
  obtain ⟨_, hctrs, h⟩ := of_bind_eq_ok h
  obtain ⟨_, -, h⟩ := of_bind_eq_ok h
  rw [← Except.ok.inj h]
  exact ⟨SliceBase.of_initCtrs hctrs, rfl, rfl, rfl⟩

theorem type_of_init (h : init blkBuf delta useCtr useSize bufCtr bufSize type = .ok s) :
    s.type = type :=
  (of_init h).2.1

/-- `ot_blk_num`: the number of blocks of one transfer. -/
def otBlkNum (type : OtStoreType) : ℕ := if type = .compact then 1 else 2

/-- The constructor of an empty store for `num` transfers. -/
def ofNum (num : ℕ) (type : OtStoreType) : Except Exception OtSendStore :=
  let bufSize := if type = .normal then num * 2 % 2 ^ 64 else num
  init (List.replicate bufSize 0) 0 0 bufSize 0 bufSize type

/-- `Slice`; the indexes count transfers from the beginning of the buffer. -/
def slice (s : OtSendStore) (begin_ end_ : ℕ) : Except Exception OtSendStore :=
  let n := otBlkNum s.type
  init s.blkBuf s.delta (begin_ * n % 2 ^ 64) (sub64 end_ begin_ * n % 2 ^ 64)
    (begin_ * n % 2 ^ 64) (end_ * n % 2 ^ 64) s.type

/-- `NextSlice`. -/
def nextSlice (num : ℕ) : Method OtSendStore OtSendStore := do
  let s ← get
  let n := otBlkNum s.type
  let out ← s.slice (s.bufCtr / n) ((s.bufCtr / n + num) % 2 ^ 64)
  let h ← s.toSliceBase.increaseBufCtr (num * n % 2 ^ 64)
  set { s with bufCtr := s.bufCtr + num * n % 2 ^ 64, bufCtr_le := h.down }
  return out

/-- `Size`. -/
def size (s : OtSendStore) : ℕ :=
  match s.type with
  | .compact => s.useSize
  | .normal => s.useSize / 2

/-- `GetDelta`. -/
def getDelta (s : OtSendStore) : Except Exception Uint128 := do
  enforce (s.delta ≠ 0) "delta_ != 0"
    ("Error: You either call GetDelta() for a random ot store, or " ++
      "accidently set cot's delta to 0.")
  pure s.delta

theorem getDelta_eq (h : s.delta ≠ 0) : s.getDelta = .ok s.delta := by
  rw [getDelta, enforce_of_pos h]
  rfl

/-- `SetDelta`. -/
def setDelta (s : OtSendStore) (delta : Uint128) : Except Exception OtSendStore := do
  enforce (delta ≠ 0) "delta != 0" "Error, you can not set delta to zero."
  pure { s with delta := delta }

/-- `GetBlock`. -/
def getBlock (s : OtSendStore) (otIdx msgIdx : ℕ) : Except Exception Uint128 := do
  enforce (msgIdx = 0 ∨ msgIdx = 1) "msg_idx == 0 || msg_idx == 1" ""
  if s.delta = 0 then
    vecGet s.blkBuf ((← s.toSliceBase.getBufIdx (2 * otIdx % 2 ^ 64)) + msgIdx)
  else
    let b ← vecGet s.blkBuf (← s.toSliceBase.getBufIdx (otBlkNum s.type * otIdx % 2 ^ 64))
    pure (b ^^^ s.delta * BitVec.ofNat 128 msgIdx)

/-- `SetNormalBlock`. -/
def setNormalBlock (s : OtSendStore) (otIdx msgIdx : ℕ) (val : Uint128) :
    Except Exception OtSendStore := do
  enforce (s.type = .normal) "type_ == OtStoreType::Normal"
    "Manipulating ot messages is not allowed in compact mode"
  enforce (msgIdx = 0 ∨ msgIdx = 1) "msg_idx == 0 || msg_idx == 1" ""
  let i ← s.toSliceBase.getBufIdx ((otIdx * 2 + msgIdx) % 2 ^ 64)
  pure { s with
    blkBuf := s.blkBuf.set i val
    bufSize_le := by rw [List.length_set]; exact s.bufSize_le }

/-- `SetCompactBlock`. -/
def setCompactBlock (s : OtSendStore) (otIdx : ℕ) (val : Uint128) :
    Except Exception OtSendStore := do
  enforce (s.type = .compact) "type_ == OtStoreType::Compact"
    "SetCompactBlock() is only allowed in compact mode"
  let i ← s.toSliceBase.getBufIdx otIdx
  pure { s with
    blkBuf := s.blkBuf.set i val
    bufSize_le := by rw [List.length_set]; exact s.bufSize_le }

/-- `CopyCotBlkBuf`, which begins at `internal_buf_ctr_`. -/
def copyCotBlkBuf (s : OtSendStore) : Except Exception (List Uint128) := do
  enforce (s.type = .compact) "type_ == OtStoreType::Compact"
    "CopyCotBlkBuf() is only allowed in compact mode"
  definedIf (s.bufCtr + s.useSize ≤ s.blkBuf.length)
  pure ((s.blkBuf.drop s.bufCtr).take s.useSize)

variable {i : ℕ}

theorem getBlock_of_delta_eq_zero (hdelta : s.delta = 0) {b : Bool} {x : Uint128}
    (hi : 2 * i < s.useSize) (hlt : 2 * i < 2 ^ 64)
    (hx : s.blkBuf[s.useCtr + 2 * i + b.toNat]? = some x) : s.getBlock i b.toNat = .ok x := by
  rw [getBlock, enforce_bind (by cases b <;> simp), if_pos hdelta, Nat.mod_eq_of_lt hlt,
    SliceBase.getBufIdx_eq hi, ok_bind, vecGet_of_getElem? hx]

theorem getBlock_of_delta_ne_zero (hdelta : s.delta ≠ 0) {b : Bool} {x : Uint128}
    (hi : otBlkNum s.type * i < s.useSize) (hlt : otBlkNum s.type * i < 2 ^ 64)
    (hx : s.blkBuf[s.useCtr + otBlkNum s.type * i]? = some x) :
    s.getBlock i b.toNat = .ok (x ^^^ if b then s.delta else 0) := by
  rw [getBlock, if_neg hdelta, Nat.mod_eq_of_lt hlt, SliceBase.getBufIdx_eq hi, ok_bind,
    vecGet_of_getElem? hx]
  cases b <;> simp

theorem getBlock_of_compact (htype : s.type = .compact) (hdelta : s.delta ≠ 0) (hi : i < s.useSize)
    (h64 : s.useSize ≤ 2 ^ 64) (b : Bool) : s.getBlock i b.toNat =
      .ok (s.blkBuf.getD (s.useCtr + i) 0 ^^^ if b then s.delta else 0) := by
  have hone : otBlkNum s.type * i = i := by rw [otBlkNum, if_pos htype, Nat.one_mul]
  have huse := s.use_le
  have hbuf := s.bufSize_le
  have hmem : s.useCtr + i < s.blkBuf.length := by omega
  refine getBlock_of_delta_ne_zero hdelta (hone.trans_lt hi) (by omega) ?_
  rw [hone, List.getD_eq_getElem?_getD, List.getElem?_eq_getElem hmem]
  rfl

end OtSendStore

/-! ### Matching stores -/

/-- **Correct transfers.** The two stores hold the same number of transfers, and for each of
them the receiver has the one of the sender's two blocks that its choice bit selects. -/
structure BaseOts (recv : OtRecvStore) (send : OtSendStore) : Prop where
  size_eq : send.size = recv.size
  getBlock_eq : ∀ i < recv.size, ∃ m : Bool → Uint128,
    (∀ b, send.getBlock i b.toNat = .ok (m b)) ∧ recv.block i = m (recv.choice i)

variable {s : OtSendStore} {i : ℕ}

theorem OtSendStore.getBlock_xor (hdelta : s.delta ≠ 0) {m : Bool → Uint128}
    (hm : ∀ b, s.getBlock i b.toNat = .ok (m b)) (b : Bool) :
    m b = m false ^^^ if b then s.delta else 0 := by
  have h0 : s.getBlock i 0 = .ok (m false) := hm false
  have h1 : s.getBlock i 1 = .ok (m true) := hm true
  rw [getBlock, enforce_bind (by omega), if_neg hdelta] at h0 h1
  cases b with
  | false => simp
  | true =>
    cases hx : s.toSliceBase.getBufIdx (otBlkNum s.type * i % 2 ^ 64) >>= vecGet s.blkBuf with
    | error e =>
      rw [← bind_assoc, hx] at h0
      exact absurd h0 (by simp)
    | ok x =>
      rw [← bind_assoc, hx] at h0 h1
      rw [← Except.ok.inj h0, ← Except.ok.inj h1]
      simp

variable {r : OtRecvStore}

/-- **Correlated transfers.** The two blocks of the sender differ by `delta`, and the receiver has
the one of its choice. -/
theorem BaseOts.correlated (h : BaseOts r s) (hdelta : s.delta ≠ 0) (hi : i < r.size) :
    ∃ x, (∀ b : Bool, s.getBlock i b.toNat = .ok (x ^^^ if b then s.delta else 0)) ∧
      r.block i = x ^^^ if r.choice i then s.delta else 0 := by
  obtain ⟨m, hm, hblock⟩ := h.getBlock_eq i hi
  have hxor := OtSendStore.getBlock_xor hdelta hm
  exact ⟨m false, fun b => by rw [hm b, hxor b], by rw [hblock, hxor]⟩

/-! ### Slices of a whole store -/

variable {e : ℕ}

theorem OtRecvStore.slice_eq (hlt : b < e) (he : e ≤ r.blkBuf.length) (h64 : e < 2 ^ 64) :
    ∃ r', r.slice b e = .ok r' ∧ r'.size = e - b ∧ ∀ i, r.useCtr = 0 →
      r'.block i = r.block (b + i) ∧ r'.choice i = r.choice (b + i) := by
  rw [slice, sub64_of_le hlt.le h64, init_eq (by omega) (by omega) hlt.le he r.bitBuf_size]
  refine ⟨_, rfl, rfl, fun i hctr => ?_⟩
  have hblock : r.blkBuf.getD (b + i) 0 = r.block (b + i) := by rw [block, hctr, Nat.zero_add]
  refine ⟨hblock, ?_⟩
  rw [choice_eq_ite, choice_eq_ite, hctr, Nat.zero_add, ← hblock]
  rfl

theorem OtSendStore.size_eq_div (s : OtSendStore) : s.size = s.useSize / otBlkNum s.type := by
  rw [size, otBlkNum]
  cases s.type <;> simp

theorem OtSendStore.useSize_eq_size (htype : s.type = .compact) : s.useSize = s.size := by
  rw [size_eq_div, otBlkNum, if_pos htype, Nat.div_one]

theorem OtSendStore.slice_eq (hdelta : s.delta ≠ 0) (hlt : b < e) (he : e ≤ s.size)
    (h64 : s.useSize < 2 ^ 64) :
    ∃ s', s.slice b e = .ok s' ∧ s'.size = e - b ∧ s'.delta = s.delta ∧
      ∀ i < e - b, s.useCtr = 0 → ∀ m, s'.getBlock i m = s.getBlock (b + i) m := by
  have hpos : 0 < otBlkNum s.type := by rw [otBlkNum]; split <;> omega
  have hle : otBlkNum s.type * e ≤ s.useSize :=
    (Nat.mul_le_mul_left _ (he.trans s.size_eq_div.le)).trans (Nat.mul_div_le _ _)
  have hbe : otBlkNum s.type * b < otBlkNum s.type * e := (Nat.mul_lt_mul_left hpos).mpr hlt
  have he64 : e < 2 ^ 64 := ((Nat.le_mul_of_pos_left e hpos).trans hle).trans_lt h64
  have hsub : (e - b) * otBlkNum s.type = otBlkNum s.type * e - otBlkNum s.type * b := by
    rw [Nat.mul_comm, Nat.mul_sub]
  have huse := s.use_le
  have hbuf := s.bufSize_le
  rw [slice, sub64_of_le hlt.le he64, hsub, Nat.mul_comm b, Nat.mul_comm e,
    Nat.mod_eq_of_lt (by omega), Nat.mod_eq_of_lt (by omega), Nat.mod_eq_of_lt (by omega),
    init_eq (by omega) (by omega) hbe.le (by omega)]
  refine ⟨_, rfl, ?_, rfl, fun i hi hctr m => ?_⟩
  · rw [size_eq_div]
    dsimp only
    rw [← hsub, Nat.mul_div_cancel _ hpos]
  · have hmul : otBlkNum s.type * (b + i) = otBlkNum s.type * b + otBlkNum s.type * i :=
      Nat.mul_add _ _ _
    have hi' : otBlkNum s.type * (b + i) < otBlkNum s.type * e :=
      (Nat.mul_lt_mul_left hpos).mpr (by omega)
    rw [getBlock, getBlock]
    dsimp only
    rw [if_neg hdelta, if_neg hdelta, Nat.mod_eq_of_lt (by omega), Nat.mod_eq_of_lt (by omega),
      SliceBase.getBufIdx_eq (by dsimp only; omega), SliceBase.getBufIdx_eq (by omega), hctr,
      Nat.zero_add, hmul]

section CompactSlice

variable {s' : OtSendStore} (htype : s.type = .compact) {len : ℕ} (h64 : b + len < 2 ^ 64)
  (hs : s.slice b (b + len) = .ok s')

include htype h64 hs

theorem OtSendStore.of_slice :
    (s'.useCtr = b ∧ s'.useSize = len ∧ s'.bufCtr = b ∧ s'.bufSize = b + len) ∧
      s'.type = .compact ∧ s'.delta = s.delta ∧ s'.blkBuf = s.blkBuf := by
  obtain ⟨hctrs, htype', hrest⟩ := of_init hs
  rw [otBlkNum, if_pos htype, Nat.mul_one, Nat.mul_one, Nat.mul_one,
    sub64_of_le (Nat.le_add_right b len) h64, Nat.add_sub_cancel_left, Nat.mod_eq_of_lt (by omega),
    Nat.mod_eq_of_lt (by omega), Nat.mod_eq_of_lt h64] at hctrs
  exact ⟨hctrs, htype'.trans htype, hrest⟩

theorem OtSendStore.exists_copyCotBlkBuf : ∃ l, s'.copyCotBlkBuf = .ok l ∧ l.length = len := by
  obtain ⟨⟨-, huse, hctr, hbuf⟩, htype', -⟩ := of_slice htype h64 hs
  have hle := s'.bufSize_le
  rw [copyCotBlkBuf, enforce_bind htype', definedIf_of_pos (by omega)]
  refine ⟨_, rfl, ?_⟩
  rw [List.length_take, List.length_drop]
  omega

end CompactSlice

/-- **Slices of correct transfers** are correct, if the stores begin at the beginning of their
buffers: the indexes of a slice count from there. -/
theorem BaseOts.slice (h : BaseOts r s) (hdelta : s.delta ≠ 0) (hr : r.useCtr = 0)
    (hs : s.useCtr = 0) (h64 : s.useSize < 2 ^ 64) (hlt : b < e) (he : e ≤ r.size) :
    ∃ r' s', r.slice b e = .ok r' ∧ s.slice b e = .ok s' ∧ BaseOts r' s' ∧ s'.delta = s.delta ∧
      r'.size = e - b ∧ ∀ i, r'.choice i = r.choice (b + i) := by
  have hsize : r.useSize = s.size := h.size_eq.symm
  have hle : s.size ≤ s.useSize := s.size_eq_div ▸ Nat.div_le_self _ _
  have huse := r.use_le
  have hbuf := r.bufSize_le
  have hes : e ≤ s.size := h.size_eq ▸ he
  obtain ⟨r', hr', hsize', hrec⟩ := r.slice_eq hlt (by omega) (by omega)
  obtain ⟨s', hs', hsize'', hdelta', hsend⟩ := OtSendStore.slice_eq hdelta hlt hes h64
  refine ⟨r', s', hr', hs', ⟨hsize''.trans hsize'.symm, fun i hi => ?_⟩, hdelta', hsize',
    fun i => (hrec i hr).2⟩
  obtain ⟨m, hm, hblock⟩ := h.getBlock_eq (b + i) (by omega)
  refine ⟨m, fun c => by rw [hsend i (by omega) hs, hm], ?_⟩
  rw [(hrec i hr).1, (hrec i hr).2, hblock]

/-! ### Masked choices -/

/-- `masked_choice[i] ^= cot.GetChoice(i)` for `height` transfers. -/
def maskChoice (cot : OtRecvStore) (height : ℕ) (choice : DynamicBitset) :
    Except Exception DynamicBitset :=
  forLoop height (fun i masked => do masked.xorBit i (← cot.getChoice i)) choice

theorem maskChoice_eq {cot : OtRecvStore} {height : ℕ} (h : height ≤ cot.size)
    {choice : DynamicBitset} (hsize : choice.size = height) :
    ∃ masked, maskChoice cot height choice = .ok masked ∧ masked.size = height ∧
      ∀ i < height, masked.bit i = (choice.bit i ^^ cot.choice i) := by
  obtain ⟨masked, hmask, hsize', hbits⟩ := forLoop_ok (n := height)
    (f := fun i (masked : DynamicBitset) => do masked.xorBit i (← cot.getChoice i))
    (fun k b => b.size = height ∧
      ∀ i, b.bit i = (choice.bit i ^^ (decide (i < k) && cot.choice i))) ⟨hsize, by simp⟩ <| by
    rintro k hk b ⟨hb, hbits⟩
    obtain ⟨b', hb', hsize', hbits'⟩ := DynamicBitset.xorBit_eq (hb ▸ hk) (cot.choice k)
    refine ⟨b', by rw [OtRecvStore.getChoice_eq (by omega), ok_bind, hb'], hsize'.trans hb,
      fun i => ?_⟩
    rw [hbits', hbits]
    rcases Nat.lt_trichotomy i k with hlt | rfl | hgt
    · simp [hlt, hlt.ne, Nat.lt_succ_of_lt hlt]
    · simp
    · simp [hgt.ne', show ¬i < k by omega, show ¬i < k + 1 by omega]
  exact ⟨masked, hmask, hsize', fun i hi => by rw [hbits, decide_eq_true hi, Bool.true_and]⟩

theorem indexChoice_bit {index height : ℕ} (hi : i < height) (h : height ≤ 128) :
    (((DynamicBitset.ofSize 0).append (BitVec.ofNat 128 index)).resize height).bit i =
      index.testBit i := by
  rw [DynamicBitset.bit_resize, decide_eq_true hi, Bool.true_and, DynamicBitset.bit_append,
    DynamicBitset.size_ofSize, if_neg (by omega), Nat.sub_zero, BitVec.getLsbD_ofNat,
    decide_eq_true (by omega), Bool.true_and]

end Yacl.Crypto
