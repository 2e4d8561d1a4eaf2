import Yacl.Crypto.Tools
import Yacl.Lib.XorSum
import Yacl.Math.Gadget

/-!
# Local linear codes

The model of `LocalLinearCode` of `yacl/kernel/code/linear_code.h`. Every entry of the output gets
the exclusive-or of `d` entries of the input. Their indexes come from a block cipher whose key is
the seed of the code: one block gives four of them, and a batch of `1024` entries numbers its
blocks from zero.

The code is linear whatever the cipher is: two runs of the same code on related inputs give
related outputs, for every relation that sums keep (`LocalLinearCode.encode_rel`). The indexes are
in range for every dimension below `2 ^ 31`, so that it never reads outside of its input, and adds
the product of the input and a matrix that depends on the seed, the dimension and `d` alone
(`LocalLinearCode.encode_eq`). `Encode2` is two of these (`LocalLinearCode.encode2_eq`).
-/

open Loop XorSum Yacl.Math

namespace Yacl.Crypto

/-- `kLcBatchSize`. -/
def kLcBatchSize : ℕ := 1024

/-- The loop of the constructor that sets the low bits of the mask until it is not below `k`, with
a bound on its iterations. -/
def lcMask (k : ℕ) : ℕ → BitVec 32 → Except Exception (BitVec 32)
  | 0, _ => throw .nonTermination
  | bound + 1, mask => if mask.toNat < k then lcMask k bound ((mask <<< 1) ||| 1) else pure mask

/-- `LocalLinearCode`: a code whose sparse matrix is made of pseudorandom indexes below `k_`. -/
structure LocalLinearCode where
  /-- `k_`: the dimension. -/
  k : BitVec 32
  /-- The key of `rp_`. -/
  key : Uint128
  /-- `mask_`. -/
  mask : BitVec 32

namespace LocalLinearCode

/-- The constructor. After 31 iterations all bits of the mask are set, and a mask that is still too
small stays so. -/
def make (seed : Uint128) (k : ℕ) : Except Exception LocalLinearCode := do
  let mask ← lcMask k 32 1
  pure ⟨BitVec.ofNat 32 k, seed, mask⟩

variable (T : Tools) (self : LocalLinearCode)

/-- One of the four indexes of a block: it is masked, and `k` is subtracted from it if it is greater
than `k - 1` as a signed number. -/
def reduceIndex (idx : BitVec 32) : BitVec 32 :=
  let idx := idx &&& self.mask
  let sub := if (self.k - 1).slt idx then self.k else 0
  idx - sub

/-- `GenIndexes` for the batch that begins at entry `i`. -/
def genIndexes (i blockNum : ℕ) : List (BitVec 32) :=
  (List.range blockNum).flatMap fun j =>
    let tmp := T.aesEncrypt self.key (BitVec.ofNat 32 i ++ 0#32 ++ BitVec.ofNat 32 j ++ 0#32)
    (List.range 4).map fun l => self.reduceIndex (tmp.extractLsb' (32 * l) 32)

variable (d : ℕ) {w w' : ℕ}

/-- One entry of a batch: the entries of the input at its `d` indexes are added. -/
def encodeEntry (ptr : List (BitVec 32)) (inp : List (BitVec w)) (j : ℕ) (val : BitVec w) :
    Except Exception (BitVec w) :=
  forLoop d (fun k val => do
    let idx ← vecGet ptr (j * d + k)
    pure (val ^^^ (← vecGet inp idx.toNat))) val

/-- One batch of `Encode`. -/
def encodeBatch (inp : List (BitVec w)) (i : ℕ) (out : List (BitVec w)) :
    Except Exception (List (BitVec w)) :=
  let limit := min kLcBatchSize (out.length - i)
  let ptr := self.genIndexes T i (divCeil (limit * d) 4)
  forLoop limit (fun j out => do
    let val ← vecGet out (i + j)
    let val ← encodeEntry d ptr inp j val
    vecSet out (i + j) val) out

/-- `Encode` for either type; the result is `out` after the call. The loop counts in 32 bits, and
does not end if the output has more entries than the last multiple of the batch size in 32 bits. -/
def encode (inp out : List (BitVec w)) : Except Exception (List (BitVec w)) := do
  enforceThat (inp.length = self.k.toNat) "in.size() == k_" inp.length self.k.toNat
  if out.length > 2 ^ 32 - kLcBatchSize then throw .nonTermination
  else
    forLoop (divCeil out.length kLcBatchSize)
      (fun b out => self.encodeBatch T d inp (b * kLcBatchSize) out) out

/-- One entry of a batch of `Encode2`. -/
def encodeEntry2 (ptr : List (BitVec 32)) (inp0 : List (BitVec w)) (inp1 : List (BitVec w'))
    (j : ℕ) (val : BitVec w × BitVec w') : Except Exception (BitVec w × BitVec w') :=
  forLoop d (fun k val => do
    let idx ← vecGet ptr (j * d + k)
    pure (val.1 ^^^ (← vecGet inp0 idx.toNat), val.2 ^^^ (← vecGet inp1 idx.toNat))) val

/-- One batch of `Encode2` for the first `size` entries. -/
def encodeBatch2 (inp0 : List (BitVec w)) (inp1 : List (BitVec w')) (size i : ℕ)
    (out : List (BitVec w) × List (BitVec w')) :
    Except Exception (List (BitVec w) × List (BitVec w')) :=
  let limit := min kLcBatchSize (size - i)
  let ptr := self.genIndexes T i (divCeil (limit * d) 4)
  forLoop limit (fun j out => do
    let val0 ← vecGet out.1 (i + j)
    let val1 ← vecGet out.2 (i + j)
    let val ← encodeEntry2 d ptr inp0 inp1 j (val0, val1)
    pure (← vecSet out.1 (i + j) val.1, ← vecSet out.2 (i + j) val.2)) out

/-- `Encode2` for all pairs of types; the result is `out0` and `out1` after the call. -/
def encode2 (inp0 out0 : List (BitVec w)) (inp1 out1 : List (BitVec w')) :
    Except Exception (List (BitVec w) × List (BitVec w')) := do
  enforceThat (inp0.length = self.k.toNat) "in0.size() == k_" inp0.length self.k.toNat
  enforceThat (inp1.length = self.k.toNat) "in1.size() == k_" inp1.length self.k.toNat
  let size := min out0.length out1.length
  if size > 2 ^ 32 - kLcBatchSize then throw .nonTermination
  else
    forLoop (divCeil size kLcBatchSize)
      (fun b out => self.encodeBatch2 T d inp0 inp1 size (b * kLcBatchSize) out) (out0, out1)

end LocalLinearCode

/-! ### Linearity -/

section Related

variable {α β : Type} {R : α → β → Prop} {l : List α} {l' : List β}
variable {a : α} {b : β}

theorem forall₂_vecGet (h : List.Forall₂ R l l') {i : ℕ} (ha : vecGet l i = .ok a)
    (hb : vecGet l' i = .ok b) : R a b := by
  obtain ⟨hi, rfl⟩ := List.getElem?_eq_some_iff.mp (of_vecGet ha)
  obtain ⟨hi', rfl⟩ := List.getElem?_eq_some_iff.mp (of_vecGet hb)
  exact (List.forall₂_iff_get.mp h).2 i hi hi'

theorem forall₂_set (h : List.Forall₂ R l l') (i : ℕ) (hab : R a b) :
    List.Forall₂ R (l.set i a) (l'.set i b) := by
  induction h generalizing i with
  | nil => exact .nil
  | cons hcd _ ih =>
    cases i with
    | zero => exact .cons hab ‹_›
    | succ i => exact .cons hcd (ih i)

theorem forall₂_vecSet (h : List.Forall₂ R l l') {i : ℕ} (hab : R a b) {m : List α} {m' : List β}
    (hm : vecSet l i a = .ok m) (hm' : vecSet l' i b = .ok m') : List.Forall₂ R m m' := by
  rw [(of_vecSet hm).2, (of_vecSet hm').2]
  exact forall₂_set h i hab

end Related

namespace LocalLinearCode

variable (T : Tools) {self : LocalLinearCode} {d : ℕ} {R : Uint128 → Uint128 → Prop}
  (hxor : ∀ a b a' b', R a b → R a' b' → R (a ^^^ a') (b ^^^ b'))

include hxor

variable {inp inp' : List Uint128}

theorem encodeEntry_rel {ptr : List (BitVec 32)} (hinp : List.Forall₂ R inp inp') {j : ℕ}
    {x x' y y' : Uint128} (hx : R x x') (h : encodeEntry d ptr inp j x = .ok y)
    (h' : encodeEntry d ptr inp' j x' = .ok y') : R y y' := by
  refine forLoop_rel R h h' hx fun k _ a b a' b' hab hb hb' => ?_
  obtain ⟨idx, hidx, hb⟩ := of_bind_eq_ok hb
  obtain ⟨idx', hidx', hb'⟩ := of_bind_eq_ok hb'
  obtain rfl : idx = idx' := Except.ok.inj (hidx.symm.trans hidx')
  obtain ⟨z, hz, hb⟩ := of_bind_eq_ok hb
  obtain ⟨z', hz', hb'⟩ := of_bind_eq_ok hb'
  rw [← Except.ok.inj hb, ← Except.ok.inj hb']
  exact hxor a a' z z' hab (forall₂_vecGet hinp hz hz')

variable {out res : List Uint128}

theorem encodeBatch_rel (hinp : List.Forall₂ R inp inp') {i : ℕ} {out' res' : List Uint128}
    (hout : List.Forall₂ R out out') (h : self.encodeBatch T d inp i out = .ok res)
    (h' : self.encodeBatch T d inp' i out' = .ok res') : List.Forall₂ R res res' := by
  rw [encodeBatch] at h h'
  rw [← hout.length_eq] at h'
  refine forLoop_rel (List.Forall₂ R) h h' hout fun j _ l m l' m' hl hm hm' => ?_
  obtain ⟨x, hx, hm⟩ := of_bind_eq_ok hm
  obtain ⟨y, hy, hm⟩ := of_bind_eq_ok hm
  obtain ⟨x', hx', hm'⟩ := of_bind_eq_ok hm'
  obtain ⟨y', hy', hm'⟩ := of_bind_eq_ok hm'
  exact forall₂_vecSet hl (encodeEntry_rel hxor hinp (forall₂_vecGet hl hx hx') hy hy') hm hm'

/-- **The code is linear.** -/
theorem encode_rel (hinp : List.Forall₂ R inp inp') {out' res' : List Uint128}
    (hout : List.Forall₂ R out out') (h : self.encode T d inp out = .ok res)
    (h' : self.encode T d inp' out' = .ok res') : List.Forall₂ R res res' := by
  obtain ⟨-, h⟩ := of_enforce_bind h
  obtain ⟨-, h'⟩ := of_enforce_bind h'
  rw [← hout.length_eq] at h'
  split at h
  · contradiction
  · next hle =>
    rw [if_neg hle] at h'
    exact forLoop_rel (List.Forall₂ R) h h' hout fun b _ l m l' m' hl hm hm' =>
      encodeBatch_rel T hxor hinp hl hm hm'

omit hxor in
theorem length_of_encode (h : self.encode T d inp out = .ok res) : res.length = out.length := by
  obtain ⟨-, h⟩ := of_enforce_bind h
  split at h
  · contradiction
  · refine forLoop_of_ok h (fun _ (l : List Uint128) => l.length = out.length) rfl ?_
    intro b _ l m hl hm
    refine forLoop_of_ok hm (fun _ (l : List Uint128) => l.length = out.length) hl ?_
    intro j _ l m hl hm
    obtain ⟨x, -, hm⟩ := of_bind_eq_ok hm
    obtain ⟨y, -, hm⟩ := of_bind_eq_ok hm
    rw [(of_vecSet hm).2, List.length_set, hl]

end LocalLinearCode

/-! ### Indexes in range -/

/-- The loop ends with a mask that is at least `k`, but less than twice as large. -/
theorem lcMask_eq_ok {k bound : ℕ} {mask : BitVec 32}
    (hwidth : 2 ^ bound * (mask.toNat + 1) ≤ 2 ^ 32)
    (hbound : k < 2 ^ bound * (mask.toNat + 1)) (hmask : mask.toNat < 2 * k) :
    ∃ res, lcMask k (bound + 1) mask = .ok res ∧ k ≤ res.toNat ∧ res.toNat < 2 * k ∧
      ∃ j, res.toNat + 1 = 2 ^ j * (mask.toNat + 1) := by
  induction bound generalizing mask with
  | zero =>
    rw [lcMask, if_neg (by omega)]
    exact ⟨mask, rfl, by omega, hmask, 0, by omega⟩
  | succ bound ih =>
    rw [lcMask]
    split
    · next hlt =>
      have hdouble : 2 ^ (bound + 1) * (mask.toNat + 1) = 2 ^ bound * (2 * mask.toNat + 1 + 1) := by
        ring
      have hhalf : 2 * mask.toNat + 1 + 1 ≤ 2 ^ 32 :=
        (Nat.le_mul_of_pos_left _ (by positivity)).trans (hdouble ▸ hwidth)
      have hnext : ((mask <<< 1) ||| 1).toNat = 2 * mask.toNat + 1 := by
        rw [BitVec.toNat_or, BitVec.toNat_shiftLeft, Nat.shiftLeft_eq, Nat.mod_eq_of_lt (by omega),
          Nat.mul_comm, show (1 : BitVec 32).toNat = 1 from rfl]
        exact (Nat.two_pow_add_eq_or_of_lt (by omega) mask.toNat).symm
      obtain ⟨res, hres, hle, hlt, j, hj⟩ := ih (by rw [hnext, ← hdouble]; exact hwidth)
        (by rw [hnext, ← hdouble]; exact hbound) (by rw [hnext]; omega)
      refine ⟨res, hres, hle, hlt, j + 1, ?_⟩
      rw [hj, hnext]
      ring
    · exact ⟨mask, rfl, by omega, hmask, 0, by omega⟩

/-- The loop ends for every dimension that fits into 32 bits, with a mask of ones. -/
theorem lcMask_one {k : ℕ} (hpos : 0 < k) (hk : k < 2 ^ 32) :
    ∃ res, lcMask k 32 1 = .ok res ∧ k ≤ res.toNat ∧ res.toNat < 2 * k ∧
      ∃ j, res.toNat + 1 = 2 ^ (j + 1) := by
  obtain ⟨res, hres, hle, hlt, j, hj⟩ := @lcMask_eq_ok k 31 1 (by decide) hk
    (by rw [show (1 : BitVec 32).toNat = 1 from rfl]; omega)
  exact ⟨res, hres, hle, hlt, j, hj⟩

theorem lcMask_of_le {k : ℕ} (hk : 2 ^ 32 ≤ k) (bound : ℕ) (mask : BitVec 32) :
    lcMask k bound mask = .error .nonTermination := by
  induction bound generalizing mask with
  | zero => rfl
  | succ bound ih => rw [lcMask, if_pos (mask.isLt.trans_le hk), ih]

namespace LocalLinearCode

/-- The mask and the dimension fit: the masked index is less than twice the dimension, and its sign
is not set. -/
structure Fits (llc : LocalLinearCode) : Prop where
  k_lt : llc.k.toNat < 2 ^ 31
  mask_lt : llc.mask.toNat < 2 ^ 31
  mask_lt_two_mul : llc.mask.toNat < 2 * llc.k.toNat

variable {k : ℕ}

theorem exists_make (seed : Uint128) (hpos : 0 < k) (hk : k < 2 ^ 32) :
    ∃ self, make seed k = .ok self := by
  obtain ⟨mask, hmask, -⟩ := lcMask_one hpos hk
  exact ⟨_, by rw [make, hmask]; rfl⟩

theorem of_make {seed : Uint128} {self : LocalLinearCode} (h : make seed k = .ok self) :
    k < 2 ^ 32 := by
  by_contra hle
  rw [make, lcMask_of_le (by omega)] at h
  contradiction

theorem make_eq_ok (seed : Uint128) (hpos : 0 < k) (hk : k < 2 ^ 31) :
    ∃ self, make seed k = .ok self ∧ self.k.toNat = k ∧ self.Fits := by
  obtain ⟨mask, hmask, -, hlt, j, hj⟩ := lcMask_one hpos (by omega)
  have hpow : 2 ^ (j + 1) ≤ 2 ^ 31 := by
    have hwidth : 2 ^ (j + 1) < 2 ^ 32 := by omega
    exact Nat.pow_le_pow_right (by decide)
      (Nat.le_of_lt_succ ((Nat.pow_lt_pow_iff_right (by decide)).mp hwidth))
  have htoNat : (BitVec.ofNat 32 k).toNat = k := by
    rw [BitVec.toNat_ofNat, Nat.mod_eq_of_lt (by omega)]
  refine ⟨⟨BitVec.ofNat 32 k, seed, mask⟩, by rw [make, hmask]; rfl, htoNat, ?_, ?_, ?_⟩
  · rw [htoNat]
    omega
  · dsimp only
    omega
  · rw [htoNat]
    exact hlt

/-- **The indexes are in range.** -/
theorem reduceIndex_lt {self : LocalLinearCode} (h : self.Fits) (idx : BitVec 32) :
    (self.reduceIndex idx).toNat < self.k.toNat := by
  have hk := h.k_lt
  have hmask := h.mask_lt
  have hle : (idx &&& self.mask).toNat ≤ self.mask.toNat := by
    exact Nat.and_le_right
  have htwo := h.mask_lt_two_mul
  rw [reduceIndex]
  generalize idx &&& self.mask = x at hle
  have hsub : (self.k - 1).toNat = self.k.toNat - 1 := by
    rw [BitVec.toNat_sub_of_le]
    · rfl
    · rw [BitVec.le_def, show (1 : BitVec 32).toNat = 1 from rfl]
      omega
  have hslt : (self.k - 1).slt x = decide (self.k.toNat - 1 < x.toNat) := by
    rw [BitVec.slt, BitVec.toInt_eq_toNat_of_lt (by omega), BitVec.toInt_eq_toNat_of_lt (by omega),
      hsub]
    simp
  rw [hslt]
  by_cases hlt : self.k.toNat - 1 < x.toNat
  · rw [if_pos (decide_eq_true hlt), BitVec.toNat_sub_of_le (by rw [BitVec.le_def]; omega)]
    omega
  · rw [if_neg (by simpa using hlt), show x - 0 = x from BitVec.sub_zero x]
    omega

variable (T : Tools) {self : LocalLinearCode}

theorem length_genIndexes (i blockNum : ℕ) :
    (self.genIndexes T i blockNum).length = blockNum * 4 := by
  simp [genIndexes]

variable {i : ℕ}

theorem genIndexes_lt (h : self.Fits) {blockNum : ℕ} {idx : BitVec 32}
    (hidx : idx ∈ self.genIndexes T i blockNum) : idx.toNat < self.k.toNat := by
  obtain ⟨j, -, hidx⟩ := List.mem_flatMap.1 hidx
  obtain ⟨l, -, rfl⟩ := List.mem_map.1 hidx
  exact reduceIndex_lt h _

/-- Index `l` of entry `q`: its place in its batch tells the block that it comes from. -/
def rowIndex (self : LocalLinearCode) (d q l : ℕ) : ℕ :=
  let pos := q % kLcBatchSize * d + l
  let tmp := T.aesEncrypt self.key (BitVec.ofNat 32 (q / kLcBatchSize * kLcBatchSize) ++ 0#32 ++
    BitVec.ofNat 32 (pos / 4) ++ 0#32)
  (self.reduceIndex (tmp.extractLsb' (32 * (pos % 4)) 32)).toNat

/-- **The matrix of the code**: an entry is set if its index comes up an odd number of times. -/
def matrix (self : LocalLinearCode) (d q i : ℕ) : Bool := hits d (self.rowIndex T d q) i

/-- What is added to entry `q`: the product of the input and the row of the matrix. -/
def rowSum (self : LocalLinearCode) (d : ℕ) {w : ℕ} (inp : List (BitVec w)) (q : ℕ) : BitVec w :=
  xorSum self.k.toNat fun i => if self.matrix T d q i then inp.getD i 0 else 0

variable {d w w' : ℕ} {inp : List (BitVec w)} {inp' : List (BitVec w')}

theorem rowSum_eq (h : self.Fits) (q : ℕ) :
    self.rowSum T d inp q = xorSum d fun l => inp.getD (self.rowIndex T d q l) 0 :=
  xorSum_hits fun _ _ => reduceIndex_lt h _

theorem getElem?_genIndexes {blockNum pos : ℕ} (h : pos < blockNum * 4) :
    (self.genIndexes T i blockNum)[pos]? = some (self.reduceIndex
      ((T.aesEncrypt self.key (BitVec.ofNat 32 i ++ 0#32 ++ BitVec.ofNat 32 (pos / 4) ++ 0#32)
        ).extractLsb' (32 * (pos % 4)) 32)) := by
  induction blockNum with
  | zero => omega
  | succ n ih =>
    have hlength : (self.genIndexes T i n).length = n * 4 := length_genIndexes T i n
    rw [genIndexes] at hlength ih ⊢
    rw [List.range_succ (n := n), List.flatMap_append]
    rcases Nat.lt_or_ge pos (n * 4) with hlt | hge
    · rw [List.getElem?_append_left (by rwa [hlength]), ih hlt]
    · obtain ⟨l, rfl⟩ := Nat.exists_eq_add_of_le hge
      rw [List.getElem?_append_right (by rw [hlength]; omega), hlength, Nat.add_sub_cancel_left,
        List.flatMap_singleton, List.getElem?_map, List.getElem?_range (by omega), Option.map_some,
        show (n * 4 + l) / 4 = n by omega, show (n * 4 + l) % 4 = l by omega]

/-- The indexes of the entries of a batch do not depend on the size of the batch. -/
theorem genIndexes_rowIndex {j l limit : ℕ} (hi : kLcBatchSize ∣ i) (hj : j < limit)
    (hlimit : limit ≤ kLcBatchSize) (hl : l < d) :
    ∃ idx, vecGet (self.genIndexes T i (divCeil (limit * d) 4)) (j * d + l) = .ok idx ∧
      idx.toNat = self.rowIndex T d (i + j) l := by
  have hblocks : limit * d ≤ divCeil (limit * d) 4 * 4 := by
    rw [divCeil]
    split <;> omega
  have hmul : (j + 1) * d ≤ limit * d := Nat.mul_le_mul_right d hj
  rw [Nat.succ_mul] at hmul
  refine ⟨_, vecGet_of_getElem? (getElem?_genIndexes T (by omega)), ?_⟩
  obtain ⟨b, rfl⟩ := hi
  have hmod : (kLcBatchSize * b + j) % kLcBatchSize = j := by
    rw [Nat.mul_add_mod, Nat.mod_eq_of_lt (by omega)]
  have hdiv : (kLcBatchSize * b + j) / kLcBatchSize = b := by
    rw [Nat.mul_add_div (by decide), Nat.div_eq_of_lt (by omega), Nat.add_zero]
  rw [rowIndex, hmod, hdiv, Nat.mul_comm b]

/-- The entry with its row of the product. -/
def addRow (self : LocalLinearCode) (d : ℕ) (inp : List (BitVec w)) (q : ℕ) (x : BitVec w) :
    BitVec w := x ^^^ self.rowSum T d inp q

theorem batch_bounds {b size : ℕ} (hb : b < divCeil size kLcBatchSize) :
    min (b * kLcBatchSize) size = b * kLcBatchSize ∧
      b * kLcBatchSize + min kLcBatchSize (size - b * kLcBatchSize) =
        min ((b + 1) * kLcBatchSize) size := by
  rw [divCeil, kLcBatchSize] at hb
  rw [kLcBatchSize]
  split at hb <;> omega

theorem le_batches (size : ℕ) : size ≤ divCeil size kLcBatchSize * kLcBatchSize := by
  rw [divCeil, kLcBatchSize]
  split <;> omega

section Batches

variable (h : self.Fits) (hinp : inp.length = self.k.toNat) (hinp' : inp'.length = self.k.toNat)
  {i size : ℕ} (hi : kLcBatchSize ∣ i)

include h hinp hi

theorem encodeEntry_eq {j limit : ℕ} (hj : j < limit) (hlimit : limit ≤ kLcBatchSize)
    (val : BitVec w) :
    encodeEntry d (self.genIndexes T i (divCeil (limit * d) 4)) inp j val =
      .ok (self.addRow T d inp (i + j) val) := by
  have hloop : encodeEntry d (self.genIndexes T i (divCeil (limit * d) 4)) inp j
        (val ^^^ xorSum 0 fun l => inp.getD (self.rowIndex T d (i + j) l) 0) =
      .ok (val ^^^ xorSum d fun l => inp.getD (self.rowIndex T d (i + j) l) 0) := by
    refine forLoop_eq_ok (fun l => val ^^^ xorSum l fun l =>
      inp.getD (self.rowIndex T d (i + j) l) 0) fun l hl => ?_
    obtain ⟨idx, hidx, heq⟩ := @genIndexes_rowIndex T self i d j l limit hi hj hlimit hl
    rw [hidx, ok_bind, heq, vecGet_getD (hinp ▸ reduceIndex_lt h _) 0, xorSum_succ,
      ← BitVec.xor_assoc]
    rfl
  rw [xorSum_zero, show (0 : BitVec w) = 0#w from rfl, BitVec.xor_zero] at hloop
  rw [addRow, rowSum_eq T h]
  exact hloop

include hinp' in
theorem encodeEntry2_eq {j limit : ℕ} (hj : j < limit) (hlimit : limit ≤ kLcBatchSize)
    (val : BitVec w) (val' : BitVec w') :
    encodeEntry2 d (self.genIndexes T i (divCeil (limit * d) 4)) inp inp' j (val, val') =
      .ok (self.addRow T d inp (i + j) val, self.addRow T d inp' (i + j) val') := by
  refine forLoop_prod (fun l hl s s' t t' hs ht => ?_)
    (encodeEntry_eq T h hinp hi hj hlimit val) (encodeEntry_eq T h hinp' hi hj hlimit val')
  obtain ⟨idx, hidx, hs⟩ := of_bind_eq_ok hs
  obtain ⟨x, hx, hs⟩ := of_bind_eq_ok hs
  rw [hidx, ok_bind] at ht
  obtain ⟨x', hx', ht⟩ := of_bind_eq_ok ht
  rw [hidx, ok_bind, hx, ok_bind, hx', ok_bind, ← Except.ok.inj hs, ← Except.ok.inj ht]
  rfl

theorem encodeBatch_eq (out : List (BitVec w)) :
    self.encodeBatch T d inp i (mapBefore (self.addRow T d inp) i out) =
      .ok (mapBefore (self.addRow T d inp) (i + min kLcBatchSize (out.length - i)) out) := by
  rw [encodeBatch, length_mapBefore]
  refine forLoop_eq_ok (fun j => mapBefore (self.addRow T d inp) (i + j) out) fun j hj => ?_
  have hlt : i + j < out.length := by omega
  rw [vecGet_mapBefore _ hlt, ok_bind,
    encodeEntry_eq T h hinp hi hj (Nat.min_le_left _ _), ok_bind, vecSet_mapBefore _ hlt]
  rfl

variable {out : List (BitVec w)}

include hinp' in
theorem encodeBatch2_eq {out' : List (BitVec w')} (hout : size ≤ out.length)
    (hout' : size ≤ out'.length) :
    self.encodeBatch2 T d inp inp' size i
        (mapBefore (self.addRow T d inp) i out, mapBefore (self.addRow T d inp') i out') =
      .ok (mapBefore (self.addRow T d inp) (i + min kLcBatchSize (size - i)) out,
        mapBefore (self.addRow T d inp') (i + min kLcBatchSize (size - i)) out') := by
  rw [encodeBatch2]
  refine forLoop_eq_ok (fun j => (mapBefore (self.addRow T d inp) (i + j) out,
    mapBefore (self.addRow T d inp') (i + j) out')) fun j hj => ?_
  dsimp only
  have hlt : i + j < out.length := by omega
  have hlt' : i + j < out'.length := by omega
  rw [vecGet_mapBefore _ hlt, ok_bind, vecGet_mapBefore _ hlt', ok_bind,
    encodeEntry2_eq T h hinp hinp' hi hj (Nat.min_le_left _ _), ok_bind, vecSet_mapBefore _ hlt,
    ok_bind, vecSet_mapBefore _ hlt', ok_bind]
  rfl

omit hi

/-- **Encoding adds the product of the input and the matrix to the output.** -/
theorem encode_eq (hout : out.length ≤ 2 ^ 32 - kLcBatchSize) :
    self.encode T d inp out = .ok (out.mapIdx (self.addRow T d inp)) := by
  have hloop : forLoop (divCeil out.length kLcBatchSize)
      (fun b out => self.encodeBatch T d inp (b * kLcBatchSize) out)
      (mapBefore (self.addRow T d inp) (min (0 * kLcBatchSize) out.length) out) =
      .ok (mapBefore (self.addRow T d inp)
        (min (divCeil out.length kLcBatchSize * kLcBatchSize) out.length) out) := by
    refine forLoop_eq_ok (fun b => mapBefore (self.addRow T d inp)
      (min (b * kLcBatchSize) out.length) out) fun b hb => ?_
    obtain ⟨hbegin, hend⟩ := batch_bounds hb
    rw [hbegin, encodeBatch_eq T h hinp (Nat.dvd_mul_left _ b), hend]
  rw [Nat.zero_mul, Nat.zero_min, mapBefore_zero, Nat.min_eq_right (le_batches _),
    mapBefore_of_le _ le_rfl] at hloop
  rw [encode, enforceThat_bind hinp, if_neg (by omega), hloop]

include hinp' in
theorem encode2_eq_mapBefore {out' : List (BitVec w')}
    (hout : min out.length out'.length ≤ 2 ^ 32 - kLcBatchSize) :
    self.encode2 T d inp out inp' out' =
      .ok (mapBefore (self.addRow T d inp) (min out.length out'.length) out,
        mapBefore (self.addRow T d inp') (min out.length out'.length) out') := by
  rw [encode2, enforceThat_bind hinp, enforceThat_bind hinp']
  dsimp only
  rw [if_neg (by omega)]
  generalize hsize : min out.length out'.length = size
  have hloop : forLoop (divCeil size kLcBatchSize)
      (fun b out => self.encodeBatch2 T d inp inp' size (b * kLcBatchSize) out)
      (mapBefore (self.addRow T d inp) (min (0 * kLcBatchSize) size) out,
        mapBefore (self.addRow T d inp') (min (0 * kLcBatchSize) size) out') =
      .ok (mapBefore (self.addRow T d inp)
          (min (divCeil size kLcBatchSize * kLcBatchSize) size) out,
        mapBefore (self.addRow T d inp')
          (min (divCeil size kLcBatchSize * kLcBatchSize) size) out') := by
    refine forLoop_eq_ok (fun b =>
      (mapBefore (self.addRow T d inp) (min (b * kLcBatchSize) size) out,
        mapBefore (self.addRow T d inp') (min (b * kLcBatchSize) size) out')) fun b hb => ?_
    obtain ⟨hbegin, hend⟩ := batch_bounds hb
    rw [hbegin, encodeBatch2_eq T h hinp hinp' (Nat.dvd_mul_left _ b) (by omega) (by omega), hend]
  rwa [Nat.zero_mul, Nat.zero_min, mapBefore_zero, mapBefore_zero,
    Nat.min_eq_right (le_batches _)] at hloop

end Batches

theorem encode_of_lt (hinp : inp.length = self.k.toNat) {out : List (BitVec w)}
    (hout : 2 ^ 32 - kLcBatchSize < out.length) :
    self.encode T d inp out = .error .nonTermination := by
  rw [encode, enforceThat_bind hinp, if_pos hout]
  rfl

theorem encode_eq_iff (h : self.Fits) (hinp : inp.length = self.k.toNat)
    (out : List (BitVec w)) :
    self.encode T d inp out = .ok (out.mapIdx (self.addRow T d inp)) ↔
      out.length ≤ 2 ^ 32 - kLcBatchSize := by
  refine ⟨fun hok => ?_, encode_eq T h hinp⟩
  by_contra hlt
  rw [encode_of_lt T hinp (by omega)] at hok
  contradiction

theorem encode_take (h : self.Fits) (hinp : inp.length = self.k.toNat)
    {out res : List (BitVec w)} (hres : self.encode T d inp out = .ok res) (m : ℕ) :
    self.encode T d inp (out.take m) = .ok (res.take m) := by
  rcases Nat.lt_or_ge (2 ^ 32 - kLcBatchSize) out.length with hlt | hle
  · rw [encode_of_lt T hinp hlt] at hres
    contradiction
  · rw [encode_eq T h hinp hle] at hres
    rw [encode_eq T h hinp (by rw [List.length_take]; omega), ← Except.ok.inj hres]
    refine congrArg Except.ok (List.ext_getElem? fun i => ?_)
    rw [List.getElem?_mapIdx, List.getElem?_take, List.getElem?_take, List.getElem?_mapIdx]
    split <;> rfl

/-- Two encodings of the common length: what comes after it stays. -/
def encodeTwice (self : LocalLinearCode) (d : ℕ) (inp out : List (BitVec w))
    (inp' out' : List (BitVec w')) : Except Exception (List (BitVec w) × List (BitVec w')) := do
  let size := min out.length out'.length
  let x ← self.encode T d inp (out.take size)
  let x' ← self.encode T d inp' (out'.take size)
  pure (x ++ out.drop size, x' ++ out'.drop size)

/-- **`Encode2` is two encodings.** -/
theorem encode2_eq (h : self.Fits) (hinp : inp.length = self.k.toNat)
    (hinp' : inp'.length = self.k.toNat) (out : List (BitVec w)) (out' : List (BitVec w')) :
    self.encode2 T d inp out inp' out' = self.encodeTwice T d inp out inp' out' := by
  rw [encodeTwice]
  have htake : (out.take (min out.length out'.length)).length = min out.length out'.length := by
    rw [List.length_take]
    omega
  have htake' : (out'.take (min out.length out'.length)).length = min out.length out'.length := by
    rw [List.length_take]
    omega
  rcases Nat.lt_or_ge (2 ^ 32 - kLcBatchSize) (min out.length out'.length) with hlt | hle
  · rw [encode_of_lt T hinp (by omega), encode2, enforceThat_bind hinp, enforceThat_bind hinp']
    rw [if_pos hlt]
    rfl
  · rw [encode_eq T h hinp (by omega), encode_eq T h hinp' (by omega),
      encode2_eq_mapBefore T h hinp hinp' hle, mapBefore_eq_append, mapBefore_eq_append]
    rfl

end LocalLinearCode

/-- **The local linear code is the code of a sparse matrix**, for exactly the outputs whose length
the loop can count to. -/
theorem localLinearCode_encode_iff (T : Tools) (d : ℕ) (seed : Uint128) {k : ℕ} (hpos : 1 ≤ k)
    (hk : k < 2 ^ 31) :
    ∃ self, LocalLinearCode.make seed k = .ok self ∧
      (∀ i blockNum, ∀ idx ∈ self.genIndexes T i blockNum, idx.toNat < k) ∧
      (∀ q, ((Finset.range k).filter fun i => self.matrix T d q i).card ≤ d) ∧
      ∀ {w w' : ℕ} (inp out : List (BitVec w)) (inp' out' : List (BitVec w')), inp.length = k →
        inp'.length = k →
        (self.encode T d inp out = .ok (out.mapIdx fun q x => x ^^^
            xorSum k fun i => if self.matrix T d q i then inp.getD i 0 else 0) ↔
          out.length ≤ 2 ^ 32 - kLcBatchSize) ∧
        (∀ res m, self.encode T d inp out = .ok res →
          self.encode T d inp (out.take m) = .ok (res.take m)) ∧
        self.encode2 T d inp out inp' out' = self.encodeTwice T d inp out inp' out' := by
  obtain ⟨self, hmake, rfl, hfits⟩ := LocalLinearCode.make_eq_ok seed hpos hk
  refine ⟨self, hmake, fun i blockNum idx hidx => LocalLinearCode.genIndexes_lt T hfits hidx,
    fun q => card_hits_le d _ _, fun inp out inp' out' hinp hinp' => ⟨?_, ?_, ?_⟩⟩
  · exact LocalLinearCode.encode_eq_iff T hfits hinp out
  · exact fun res m hres => LocalLinearCode.encode_take T hfits hinp hres m
  · exact LocalLinearCode.encode2_eq T hfits hinp hinp' out out'

/-- The code of dimension three with two indexes for each entry, on five words; and on the words of
another width together with them. -/
theorem localLinearCode_encode_three :
    ∃ self, LocalLinearCode.make 9 3 = .ok self ∧
      self.encode default 2 [5#64, 6#64, 12#64] [1#64, 2#64, 3#64, 4#64, 5#64] =
        .ok ([1#64, 2#64, 3#64, 4#64, 5#64].mapIdx fun q x => x ^^^ xorSum 3 fun i =>
          if self.matrix default 2 q i then [5#64, 6#64, 12#64].getD i 0 else 0) ∧
      self.encode2 default 2 [5#64, 6#64, 12#64] [1#64, 2#64] [7#128, 0#128, 8#128] [1#128] =
        self.encodeTwice default 2 [5#64, 6#64, 12#64] [1#64, 2#64] [7#128, 0#128, 8#128]
          [1#128] := by
  obtain ⟨self, hmake, -, -, hself⟩ :=
    localLinearCode_encode_iff default 2 9 (k := 3) (by decide) (by decide)
  exact ⟨self, hmake, (hself _ _ [7#128, 0#128, 8#128] [] rfl rfl).1.2 (by decide),
    (hself _ _ _ _ rfl rfl).2.2⟩

/-- An output of `2 ^ 32 - 1023` words: the loop begins again at the first batch. -/
theorem not_localLinearCode_encode_long :
    ∃ self, LocalLinearCode.make 0 1 = .ok self ∧
      self.encode default 10 [0#64] (List.replicate (2 ^ 32 - 1023) 0) =
        .error .nonTermination := by
  obtain ⟨self, hmake, hk, -⟩ :=
    LocalLinearCode.make_eq_ok 0 (k := 1) (by decide) (by decide)
  refine ⟨self, hmake,
    LocalLinearCode.encode_of_lt default (show [0#64].length = _ from hk.symm) ?_⟩
  rw [List.length_replicate]
  decide

end Yacl.Crypto
