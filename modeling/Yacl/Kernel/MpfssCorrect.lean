import Yacl.Kernel.Mpfss

/-!
# Correctness of multi-point function secret sharing

The outputs of `MpfssSend` and `MpfssRecv` are related bin by bin. `BinsDone` says in closed form
what a party has after some of its bins: the entries of a table, laid out in the bins, and the sums
of these bins. Each party has such a table, whose leaves are those of the GYWZ trees, and the two
tables are equal except at the indexes; the last message corrects the receiver's entries there.

The four versions share the proofs, which use only the laws of their memory. The relation is then
that of a run of any version, as long as the counters of the loops do not overflow and the trees of
the version with fixed indexes for `64` bits have sizes that fit an `int`.
-/

open Bits Loop TwoParty Proc PuncturedTree XorSum Yacl.Math

namespace Yacl.Crypto

variable (T : Tools) {n : ℕ} {σ : Type} (M : MpfssMem n σ) (op : MpfssOp (BitVec (8 * n)))
  (p : MpFssParam)

/-! ### Bins that are done -/

section Bins

variable {T} {M} {op} {p} (L : M.Laws)

theorem getElem?_hashed {l : List Uint128} {size j : ℕ} {x : Uint128} (hj : j < size)
    (hx : l[j]? = some x) :
    (paraCrHashInplace128 T (l.take size) ++ l.drop size)[j]? = some (crHash128 T x) := by
  have hlt : j < l.length := (List.getElem?_eq_some_iff.mp hx).1
  rw [paraCrHashInplace128_eq, List.getElem?_append_left (by simp; omega), List.getElem?_map,
    List.getElem?_take_of_lt hj, hx]
  rfl

variable (T op) in
/-- **The work on a bin** in closed form. -/
theorem mpfssBin_eq {st : σ} {pos size : ℕ} {span : List Uint128} (leaf : ℕ → Uint128)
    (hfits : L.Fits st pos span.length) (hsize : size ≤ span.length)
    (hout : pos + size ≤ (M.output st).length) (sum : BitVec (8 * n)) :
    ∃ st', mpfssBin T M op pos size (overwrite span 0 span.length leaf) st sum =
        .ok (st', op.reduce sum size fun j => L.conv (crHash128 T (leaf j))) ∧
      M.output st' =
        overwrite (M.output st) pos size (fun j => L.conv (crHash128 T (leaf j))) ∧
      ∀ pos' size', L.Fits st pos' size' → L.Fits st' pos' size' := by
  set leaves := overwrite span 0 span.length leaf with hleaves
  have hlen : (paraCrHashInplace128 T (leaves.take size) ++ leaves.drop size).length =
      span.length := by
    rw [List.length_append, paraCrHashInplace128_eq, List.length_map, ← List.length_append,
      List.take_append_drop, hleaves, length_overwrite]
  obtain ⟨st', hput, houtput, hfits'⟩ := L.put_eq (hlen ▸ hfits) hout
  have hentries : M.output st' =
      overwrite (M.output st) pos size (fun j => L.conv (crHash128 T (leaf j))) := by
    rw [houtput]
    refine overwrite_congr fun j hj => ?_
    rw [List.getD_eq_getElem?_getD, getElem?_hashed hj
      (getElem?_overwrite_of_mem (by omega) (by omega))]
    rfl
  obtain ⟨g, hg, hgi⟩ :=
    readSpan_overwrite_at hout (fun j => L.conv (crHash128 T (leaf j))) 0
  refine ⟨st', ?_, hentries, hfits'⟩
  rw [mpfssBin, hput, ok_bind, hentries, hg, ok_bind, op.reduce_congr hgi]
  rfl

/-- The first `k` bins are done: their entries are those of a table, and have been added to the
sums. -/
structure BinsDone (op : MpfssOp (BitVec (8 * n))) (p : MpFssParam) (f : ℕ → ℕ → BitVec (8 * n))
    (init : ℕ → BitVec (8 * n)) (out : List (BitVec (8 * n))) (tree : ℕ → ℕ) (k : ℕ) (st : σ)
    (sums : ℕ → BitVec (8 * n)) : Prop where
  output_eq : M.output st = overwrite out 0 (p.start k) (p.layout f)
  fits : ∀ i < p.noiseNum, L.Fits st (i * p.spVoleSize) (tree i)
  sums_eq : ∀ i, sums i = if i < k then op.reduce (init i) (p.binSize i) (f i) else init i

variable {f : ℕ → ℕ → BitVec (8 * n)} {init : ℕ → BitVec (8 * n)} {out : List (BitVec (8 * n))}
  {tree : ℕ → ℕ} {k : ℕ} {st : σ} {sums : ℕ → BitVec (8 * n)}

theorem BinsDone.zero (hout : M.output st = out)
    (hfits : ∀ i < p.noiseNum, L.Fits st (i * p.spVoleSize) (tree i)) :
    BinsDone L op p f init out tree 0 st init :=
  ⟨by rw [hout, p.start_zero, overwrite_zero], hfits, fun _ => rfl⟩

variable {L} in
/-- **One more bin.** -/
theorem BinsDone.succ (h : BinsDone L op p f init out tree k st sums) (hk : k < p.noiseNum)
    (hout : p.mpVoleSize ≤ out.length) {span : List Uint128} (hspan : span.length = tree k)
    (hsize : p.binSize k ≤ tree k) (leaf : ℕ → Uint128)
    (hf : ∀ j < p.binSize k, f k j = L.conv (crHash128 T (leaf j))) :
    ∃ st' sum, mpfssBin T M op (k * p.spVoleSize) (p.binSize k)
        (overwrite span 0 (tree k) leaf) st (sums k) = .ok (st', sum) ∧
      BinsDone L op p f init out tree (k + 1) st' (Function.update sums k sum) := by
  obtain ⟨st', hbin, houtput, hfits⟩ := mpfssBin_eq T op L leaf (hspan ▸ h.fits k hk)
    (show p.binSize k ≤ span.length by omega)
    (by rw [h.output_eq, length_overwrite]; exact (p.add_binSize_le hk).trans hout) (sums k)
  rw [hspan] at hbin
  refine ⟨st', _, hbin, ?_, fun i hi => hfits _ _ (h.fits i hi), fun i => ?_⟩
  · rw [houtput, h.output_eq, p.overwrite_layout out f hk fun j hj => (hf j hj).symm]
  · rcases Nat.lt_trichotomy i k with hik | rfl | hik
    · rw [Function.update_of_ne hik.ne, h.sums_eq, if_pos hik, if_pos (by omega)]
    · rw [Function.update_self, h.sums_eq, if_neg (by omega), if_pos (by omega)]
      exact op.reduce_congr fun j hj => (hf j hj).symm
    · rw [Function.update_of_ne hik.ne', h.sums_eq, if_neg (by omega), if_neg (by omega)]

/-- The entry at the index of each of the first `k` bins corrected by a summand. -/
def corrected (op : MpfssOp (BitVec (8 * n))) (index : ℕ → ℕ) (c : ℕ → BitVec (8 * n)) (k : ℕ)
    (g : ℕ → ℕ → BitVec (8 * n)) (i j : ℕ) : BitVec (8 * n) :=
  if i < k ∧ j = index i then op.add (g i j) (c i) else g i j

theorem mpfssCorrectAll_eq {indexes : List ℕ} {index : ℕ → ℕ} (ht : p.noiseNum < 2 ^ 32)
    (hget : ∀ i < p.noiseNum, vecGet indexes i = .ok (index i))
    (hindex : ∀ i < p.noiseNum, index i < p.binSize i) (hout : p.mpVoleSize ≤ out.length)
    (recvBuf : List Bytes.Byte) (g : ℕ → ℕ → BitVec (8 * n)) :
    mpfssCorrectAll op p indexes recvBuf sums (overwrite out 0 p.mpVoleSize (p.layout g)) =
      .ok (overwrite out 0 p.mpVoleSize (p.layout
        (corrected op index (fun i => op.sub (Bytes.wordAt n recvBuf i) (sums i))
          p.noiseNum g))) := by
  set c := fun i => op.sub (Bytes.wordAt n recvBuf i) (sums i) with hc
  rw [mpfssCorrectAll, if_pos ht]
  refine forLoop_eq_ok (fun k => overwrite out 0 p.mpVoleSize (p.layout (corrected op index c k g)))
    fun k hk => ?_
  have hpos : k * p.spVoleSize + index k < p.mpVoleSize :=
    (Nat.add_lt_add_left (hindex k hk) _).trans_le (p.add_binSize_le hk)
  have hold : p.layout (corrected op index c k g) (k * p.spVoleSize + index k) =
      g k (index k) := by
    rw [MpFssParam.layout, p.bin_add hk (hindex k hk), p.off_add hk (hindex k hk), corrected,
      if_neg (by omega)]
  rw [mpfssCorrect, hget k hk]
  dsimp only [ok_bind]
  rw [vecGet_of_getElem? (getElem?_overwrite_of_mem (by omega) (by omega)), ok_bind,
    vecSet_of_lt (by rw [length_overwrite]; omega), overwrite_set hpos, Nat.sub_zero, hold]
  refine congrArg Except.ok (overwrite_congr fun q hq => ?_)
  have heq := p.bin_mul_add_off q
  by_cases hqk : q = k * p.spVoleSize + index k
  · rw [hqk, Function.update_self, MpFssParam.layout, p.bin_add hk (hindex k hk),
      p.off_add hk (hindex k hk), corrected, if_pos ⟨by omega, rfl⟩]
  · rw [Function.update_of_ne hqk, MpFssParam.layout, MpFssParam.layout]
    refine if_congr ⟨fun h => ⟨by omega, h.2⟩, fun h => ⟨?_, h.2⟩⟩ rfl rfl
    have hne : p.bin q ≠ k := fun hbin => hqk (by rw [← heq, h.2, hbin])
    omega

end Bins

/-! ### The relation of the outputs -/

/-- **The relation.** The two outputs agree everywhere in the bins, except that at the index of a
bin the sender's entry is the receiver's entry plus the weight of the bin. -/
def MpfssRelated (index : ℕ → ℕ) (w : List (BitVec (8 * n))) (a b : List (BitVec (8 * n))) : Prop :=
  ∀ i < p.noiseNum, ∀ j < p.binSize i, ∃ y, b[i * p.spVoleSize + j]? = some y ∧
    a[i * p.spVoleSize + j]? = some (if j = index i then op.add y (w.getD i 0) else y)

section Related

variable {op p}

/-- The entries that the parties have stored are related, when the receiver has corrected its own
by the sums. -/
theorem mpfssRelated_overwrite (hop : op.IsGroup) {index : ℕ → ℕ}
    (hindex : ∀ i < p.noiseNum, index i < p.binSize i) {f g : ℕ → ℕ → BitVec (8 * n)}
    (hfg : ∀ i < p.noiseNum, ∀ j < p.binSize i, j ≠ index i → f i j = g i j)
    {w outS outR : List (BitVec (8 * n))} (hS : p.mpVoleSize ≤ outS.length)
    (hR : p.mpVoleSize ≤ outR.length) {c : ℕ → BitVec (8 * n)}
    (hc : ∀ i < p.noiseNum, c i = op.sub (op.reduce (op.sub 0 (w.getD i 0)) (p.binSize i) (f i))
      (op.reduce 0 (p.binSize i) (g i))) :
    MpfssRelated op p index w (overwrite outS 0 p.mpVoleSize (p.layout f))
      (overwrite outR 0 p.mpVoleSize (p.layout (corrected op index c p.noiseNum g))) := by
  intro i hi j hj
  have hpos : i * p.spVoleSize + j < p.mpVoleSize :=
    (Nat.add_lt_add_left hj _).trans_le (p.add_binSize_le hi)
  refine ⟨_, getElem?_overwrite_of_mem (by omega) (by omega), ?_⟩
  rw [getElem?_overwrite_of_mem (by omega) (by omega), Nat.sub_zero, MpFssParam.layout,
    MpFssParam.layout, p.bin_add hi hj, p.off_add hi hj, corrected]
  by_cases hji : j = index i
  · rw [if_pos hji, if_pos ⟨hi, hji⟩, hc i hi, hji,
      hop.add_correction (hfg i hi) (hindex i hi)]
  · rw [if_neg hji, if_neg fun h => hji h.2, hfg i hi j hj hji]

end Related

/-! ### Chosen indexes -/

/-- Transfers for a parameter set: enough correct ones, in stores that start at the beginning of
their buffers, which is where the programs slice them from. -/
structure MpfssOts (r : OtRecvStore) (s : OtSendStore) : Prop where
  base : BaseOts r s
  delta_ne : s.delta ≠ 0
  recv_ctr : r.useCtr = 0
  send_ctr : s.useCtr = 0
  send_lt : s.useSize < 2 ^ 64
  size_le : p.requireOtNum ≤ r.size

section Tables

variable {M} (L : M.Laws) (delta : Uint128) (seed : ℕ → Uint128)

/-- The table of the sender. -/
def sendTable (i j : ℕ) : BitVec (8 * n) :=
  L.conv (crHash128 T (gywzLeaf T delta (seed i) (p.binLength i - 1) j))

/-- The table of the receiver before the correction, whose leaf at the index is off by `delta`. -/
def recvTable (index : ℕ → ℕ) (i j : ℕ) : BitVec (8 * n) :=
  L.conv (crHash128 T (gywzLeaf T delta (seed i) (p.binLength i - 1) j ^^^
    if j = index i then delta else 0))

theorem sendTable_eq_recvTable {index : ℕ → ℕ} {i j : ℕ} (h : j ≠ index i) :
    sendTable T p L delta seed i j = recvTable T p L delta seed index i j := by
  rw [sendTable, recvTable, if_neg h]
  simp

end Tables

section Runs

variable {M} {op} {p} {L : M.Laws} {r : OtRecvStore} {s : OtSendStore} (hots : MpfssOts p r s)
  (hbin : p.lastSpVoleSize < 2 ^ 31) (seed : ℕ → Uint128) {outS outR : List (BitVec (8 * n))}
  (hS : p.mpVoleSize ≤ outS.length) (hR : p.mpVoleSize ≤ outR.length)

include hots in
theorem MpfssOts.slice_eq {i : ℕ} (hi : i < p.noiseNum) : ∃ r' s',
    r.slice (i * ceilLog2 p.spVoleSize) (i * ceilLog2 p.spVoleSize + p.binLength i) = .ok r' ∧
    s.slice (i * ceilLog2 p.spVoleSize) (i * ceilLog2 p.spVoleSize + p.binLength i) = .ok s' ∧
    BaseOts r' s' ∧ s'.delta = s.delta ∧ r'.size = p.binLength i ∧
    ∀ k, r'.choice k = r.choice (i * ceilLog2 p.spVoleSize + k) := by
  obtain ⟨l, hl, -, -⟩ := p.binLength_spec i
  obtain ⟨r', s', hr', hs', hbase, hdelta, hsize, hchoice⟩ :=
    hots.base.slice hots.delta_ne hots.recv_ctr hots.send_ctr hots.send_lt
      (show i * ceilLog2 p.spVoleSize < i * ceilLog2 p.spVoleSize + p.binLength i by omega)
      ((p.slice_le hi).trans hots.size_le)
  exact ⟨r', s', hr', hs', hbase, hdelta, by omega, hchoice⟩

include hots hbin hS hR in
/-- **A bin with a chosen index.** -/
theorem mpfssStep_session {initS initR : ℕ → BitVec (8 * n)} {i : ℕ} (hi : i < p.noiseNum)
    (hlen : p.indexes.length = p.noiseNum) (hindex : p.index i < p.binSize i)
    {x y : σ × (ℕ → BitVec (8 * n))}
    (hx : BinsDone L op p (sendTable T p L s.delta seed) initS outS p.binSize i x.1 x.2)
    (hy : BinsDone L op p (recvTable T p L s.delta seed p.index) initR outR p.binSize i y.1 y.2) :
    Session False (mpfssSendStep T M op p s seed i x) (mpfssRecvStep T M op p r i y) fun x y =>
      BinsDone L op p (sendTable T p L s.delta seed) initS outS p.binSize (i + 1) x.1 x.2 ∧
      BinsDone L op p (recvTable T p L s.delta seed p.index) initR outR p.binSize (i + 1)
        y.1 y.2 := by
  obtain ⟨l, hl, hlow, hn⟩ := p.binLength_spec i
  obtain ⟨r', s', hr', hs', hbase, hdelta, hsize, -⟩ := hots.slice_eq hi
  obtain ⟨spanS, hspanS, hlenS⟩ := L.span_eq (hx.fits i hi)
  obtain ⟨spanR, hspanR, hlenR⟩ := L.span_eq (hy.fits i hi)
  have hlt : p.binSize i < 2 ^ 32 := by
    have := p.binSize_le_last i
    omega
  have htree := gywzOtExt_session T hbase (hdelta ▸ hots.delta_ne) (p.one_lt_binSize i) hlt
    ((p.log2Ceil_binSize i).trans (congrArg Except.ok hl)) hlow hn (hsize.trans hl) (seed i)
    hlenS.ge hlenR.ge hindex
  have htables : ∀ j, gywzLeaf T s.delta (seed i) (p.binLength i - 1) j =
      gywzLeaf T s.delta (seed i) l j := fun j => by rw [hl, Nat.add_sub_cancel]
  rw [mpfssSendStep, mpfssRecvStep]
  dsimp only
  rw [bind_of_ok hspanS, bind_of_ok p.log2Ceil_spVoleSize, bind_of_ok (p.log2Ceil_binSize i),
    bind_of_ok hs', bind_of_ok hspanR, bind_of_ok p.log2Ceil_spVoleSize,
    bind_of_ok (p.log2Ceil_binSize i), bind_of_ok hr', bind_of_ok (p.vecGet_indexes hlen hi),
    Nat.mod_eq_of_lt hlt]
  refine htree.bind ?_
  rintro _ _ ⟨rfl, rfl⟩
  obtain ⟨st, sum, hst, hdoneS⟩ := hx.succ hi hS hlenS le_rfl (gywzLeaf T s'.delta (seed i) l)
    fun j _ => by rw [sendTable, htables, hdelta]
  obtain ⟨st', sum', hst', hdoneR⟩ := hy.succ hi hR hlenR le_rfl
    (fun j => gywzLeaf T s'.delta (seed i) l j ^^^ if j = p.index i then s'.delta else 0)
    fun j _ => by rw [recvTable, htables, hdelta]
  rw [bind_of_ok hst, bind_of_ok hst']
  exact .ret ⟨hdoneS, hdoneR⟩

theorem length_sums (p : MpFssParam) (sums : ℕ → BitVec (8 * n)) :
    (Bytes.encode n ((List.range p.noiseNum).map sums)).length = p.noiseNum * n := by
  rw [Bytes.length_encode, List.length_map, List.length_range]

include hS hR in
/-- **The end of a run.** When all bins are done, the sums of the sender correct the entries of the
receiver. -/
theorem mpfssCorrectAll_related (hop : op.IsGroup) (ht : p.noiseNum < 2 ^ 32) {indexes : List ℕ}
    {index : ℕ → ℕ} (hget : ∀ i < p.noiseNum, vecGet indexes i = .ok (index i))
    (hindex : ∀ i < p.noiseNum, index i < p.binSize i) {w : List (BitVec (8 * n))}
    {delta : Uint128} {tree : ℕ → ℕ} {st st' : σ} {sums sums' : ℕ → BitVec (8 * n)}
    (hx : BinsDone L op p (sendTable T p L delta seed) (fun i => op.sub 0 (w.getD i 0)) outS tree
      p.noiseNum st sums)
    (hy : BinsDone L op p (recvTable T p L delta seed index) (fun _ => 0) outR tree p.noiseNum
      st' sums') :
    ∃ b, mpfssCorrectAll op p indexes (Bytes.encode n ((List.range p.noiseNum).map sums)) sums'
        (M.output st') = .ok b ∧ MpfssRelated op p index w (M.output st) b := by
  rw [hy.output_eq, hx.output_eq, p.start_noiseNum, mpfssCorrectAll_eq ht hget hindex hR]
  refine ⟨_, rfl, mpfssRelated_overwrite hop hindex
    (fun i hi j hj hji => sendTable_eq_recvTable T p L delta seed hji) hS hR fun i hi => ?_⟩
  rw [Bytes.wordAt_encode_range _ hi, hx.sums_eq, hy.sums_eq, if_pos hi, if_pos hi]

include hots hbin hS hR in
/-- **A run with chosen indexes.** -/
theorem mpfss_session (hop : op.IsGroup) (ht : p.noiseNum < 2 ^ 32)
    (hlen : p.indexes.length = p.noiseNum) (hindex : ∀ i < p.noiseNum, p.index i < p.binSize i)
    {w : List (BitVec (8 * n))} (hw : p.noiseNum ≤ w.length) (L : M.Laws) :
    Session False (mpfssSend T M op p s seed w outS) (mpfssRecv T M op p r outR)
      (MpfssRelated op p p.index w) := by
  obtain ⟨stS, hstS, houtS, hfitsS⟩ := L.alloc_eq hS
  obtain ⟨stR, hstR, houtR, hfitsR⟩ := L.alloc_eq hR
  have hsizeS : s.size ≥ p.requireOtNum := hots.base.size_eq ▸ hots.size_le
  rw [mpfssSend, mpfssRecv, bind_enforce p.assumption_eq, bind_enforce hS, bind_enforce hw,
    bind_enforce hsizeS, bind_of_ok hstS, bind_enforce p.assumption_eq, bind_enforce hR,
    bind_enforce hots.size_le, bind_of_ok hstR, forLoop32, forLoop32, if_pos ht, if_pos ht]
  refine Session.bind (Session.forLoop (fun i x y =>
    BinsDone L op p (sendTable T p L s.delta seed) (fun i => op.sub 0 (w.getD i 0)) outS
      p.binSize i x.1 x.2 ∧
    BinsDone L op p (recvTable T p L s.delta seed p.index) (fun _ => 0) outR p.binSize i y.1 y.2)
    ⟨.zero L houtS hfitsS, .zero L houtR hfitsR⟩
    fun i hi x y h => mpfssStep_session T hots hbin seed hS hR hi hlen (hindex i hi) h.1 h.2) ?_
  rintro ⟨st, sums⟩ ⟨st', sums'⟩ ⟨hx, hy⟩
  obtain ⟨b, hb, hrelated⟩ := mpfssCorrectAll_related T seed hS hR hop ht
    (fun i hi => p.vecGet_indexes hlen hi) hindex hx hy
  refine .send_recv ?_
  rw [bind_enforce (length_sums p sums).ge, hb]
  exact .ret hrelated

end Runs

/-! ### The super-batches -/

section SuperBatches

theorem superBatchNum_eq : superBatchNum p = 1 + (p.noiseNum - 1) / 16 :=
  if_neg (by have := p.noiseNum_pos; omega)

variable {p} (ht : p.noiseNum < 2 ^ 32) {sb : ℕ} (hsb : sb < superBatchNum p)

include ht hsb

theorem superBound_eq : superBound p sb = min 16 (p.noiseNum - sb * 16) := by
  rw [superBatchNum_eq] at hsb
  rw [superBound, Nat.mod_eq_of_lt (by omega), Nat.mod_eq_of_lt (by omega)]

variable {i : ℕ}

theorem batchIdx_lt (hi : i < superBound p sb) : sb * 16 + i < p.noiseNum := by
  rw [superBound_eq ht hsb] at hi
  omega

theorem batchIdx_eq (hi : i < superBound p sb) : batchIdx sb i = sb * 16 + i := by
  have := batchIdx_lt ht hsb hi
  rw [batchIdx, Nat.mod_eq_of_lt (by omega)]

theorem last_iff (hi : i < superBound p sb) :
    sb = superBatchNum p - 1 ∧ i = superBound p sb - 1 ↔ sb * 16 + i = p.noiseNum - 1 := by
  rw [superBound_eq ht hsb] at hi ⊢
  rw [superBatchNum_eq] at hsb ⊢
  omega

theorem superBinSize_eq (hi : i < superBound p sb) :
    superBinSize p sb i = p.binSize (sb * 16 + i) := by
  rw [superBinSize, MpFssParam.binSize, if_congr (last_iff ht hsb hi) rfl rfl]

theorem binLength_of_succ_lt (hi : i + 1 < superBound p sb) :
    p.binLength (sb * 16 + i) = ceilLog2 p.spVoleSize :=
  p.binLength_of_ne (by have := batchIdx_lt ht hsb hi; omega)

/-- The messages of the bins of a super-batch lie in the message, which lies in the buffer. -/
theorem superMsgLength_eq : ∃ m, superMsgLength p sb = .ok m ∧
    m ≤ ceilLog2 p.spVoleSize * 15 + ceilLog2 p.lastSpVoleSize ∧
    ∀ i < superBound p sb, i * ceilLog2 p.spVoleSize + p.binLength (sb * 16 + i) ≤ m := by
  have hbound := superBound_eq ht hsb
  have hmono := ceilLog2_mono p.one_lt_spVoleSize p.spVoleSize_le_last
  have hnum := superBatchNum_eq p
  refine ⟨_, by
    rw [superMsgLength, p.log2Ceil_spVoleSize, p.log2Ceil_lastSpVoleSize]
    rfl, ?_, fun i hi => ?_⟩
  · split
    · have := Nat.mul_le_mul_right (ceilLog2 p.spVoleSize)
        (show superBound p sb - 1 ≤ 15 by omega)
      omega
    · omega
  · split
    · rcases Nat.lt_or_ge (i + 1) (superBound p sb) with h | h
      · have := Nat.mul_le_mul_right (ceilLog2 p.spVoleSize)
          (show i + 1 ≤ superBound p sb - 1 by omega)
        rw [Nat.succ_mul] at this
        rw [binLength_of_succ_lt ht hsb h]
        omega
      · obtain rfl : i = superBound p sb - 1 := by omega
        exact Nat.add_le_add_left (p.binLength_le_last _) _
    · have hidx : sb * 16 + i ≠ p.noiseNum - 1 := by omega
      have := Nat.mul_le_mul_right (ceilLog2 p.spVoleSize) (show i + 1 ≤ 16 by omega)
      rw [Nat.succ_mul] at this
      rw [p.binLength_of_ne hidx]
      omega

end SuperBatches

/-! ### Fixed indexes -/

section FixedRuns

variable {M} {op} {p} {L : M.Laws} {r : OtRecvStore} {s : OtSendStore} (hots : MpfssOts p r s)
  (hbin : p.lastSpVoleSize < 2 ^ 31) (hfixed : L.FixedOk p) (seed : ℕ → Uint128)
  (hindex : ∀ i < p.noiseNum, p.index i < p.binSize i)
  (hchoice : ∀ i < p.noiseNum, ∀ k < p.binLength i,
    r.choice (i * ceilLog2 p.spVoleSize + k) = (p.index i).testBit k)
  {outS outR : List (BitVec (8 * n))} (hS : p.mpVoleSize ≤ outS.length)
  (hR : p.mpVoleSize ≤ outR.length)

/-- The number of leaves of the tree of bin `i`. -/
def binTree (M : MpfssMem n σ) (p : MpFssParam) (i : ℕ) : ℕ :=
  M.treeSize (p.binSize i) (p.binLength i)

/-- The messages for bin `i` with which the receiver grows its tree. -/
def FixedMsgs (T : Tools) (M : MpfssMem n σ) (p : MpFssParam) (r : OtRecvStore) (delta : Uint128)
    (seed : ℕ → Uint128) (i : ℕ) (msgs : ℕ → Uint128) : Prop :=
  ∀ r', r.slice (i * ceilLog2 p.spVoleSize) (i * ceilLog2 p.spVoleSize + p.binLength i) = .ok r' →
    ∀ out, binTree M p i ≤ out.length → ∀ msgs' : ℕ → Uint128,
      (∀ k < p.binLength i, msgs' k = msgs k) →
      gywzOtExtRecvFixedIndexMsgs T r' (binTree M p i) out (p.binLength i) msgs' =
        .ok (overwrite out 0 (binTree M p i) fun j =>
          gywzLeaf T delta (seed i) (p.binLength i - 1) j ^^^ if j = p.index i then delta else 0)

variable {i : ℕ}

theorem FixedMsgs.congr {delta : Uint128} {msgs msgs' : ℕ → Uint128}
    (h : FixedMsgs T M p r delta seed i msgs) (heq : ∀ k < p.binLength i, msgs' k = msgs k) :
    FixedMsgs T M p r delta seed i msgs' := fun r' hr' out hout _ hmsgs =>
  h r' hr' out hout _ fun k hk => (hmsgs k hk).trans (heq k hk)

theorem toNat_bitsOf_of_testBit {l index : ℕ} (hlt : index < 2 ^ l) {c : ℕ → Bool}
    (h : ∀ k < l, c k = index.testBit k) : (bitsOf l c).toNat = index := by
  refine Nat.eq_of_testBit_eq fun k => ?_
  rw [BitVec.testBit_toNat, getLsbD_bitsOf]
  by_cases hk : k < l
  · rw [decide_eq_true hk, Bool.true_and, h k hk]
  · rw [decide_eq_false hk, Bool.false_and,
      Nat.testBit_lt_two_pow (hlt.trans_le (Nat.pow_le_pow_right (by omega) (by omega)))]

include hbin hfixed in
theorem binTree_spec (i : ℕ) : p.binSize i ≤ binTree M p i ∧
    binTree M p i ≤ 2 ^ p.binLength i ∧ binTree M p i < 2 ^ 32 := by
  obtain ⟨l, hl, -, -⟩ := p.binLength_spec i
  have hl31 : l + 1 ≤ 31 :=
    hl ▸ ceilLog2_le (p.one_lt_binSize i) ((p.binSize_le_last i).trans hbin.le)
  have hpow : 2 ^ (l + 1) ≤ 2 ^ 31 := Nat.pow_le_pow_right (by omega) hl31
  obtain ⟨hle, hup⟩ := L.treeSize_spec hfixed hl
  rw [binTree, hl]
  omega

include hots hbin hfixed hindex hchoice in
/-- **A tree with a fixed index.** -/
theorem gywz_fixedMsgs (hi : i < p.noiseNum) : ∃ s',
    s.slice (i * ceilLog2 p.spVoleSize) (i * ceilLog2 p.spVoleSize + p.binLength i) = .ok s' ∧
    ∀ span, binTree M p i ≤ span.length → ∃ msgs,
      gywzOtExtSendFixedIndexMsgs T (seed i) s' (binTree M p i) span (p.binLength i) =
        .ok (overwrite span 0 (binTree M p i) (gywzLeaf T s.delta (seed i) (p.binLength i - 1)),
          msgs) ∧ FixedMsgs T M p r s.delta seed i msgs := by
  obtain ⟨l, hl, hlow, hn⟩ := p.binLength_spec i
  obtain ⟨r', s', hr', hs', hbase, hdelta, hsize, hbits⟩ := hots.slice_eq hi
  obtain ⟨hle, hup, h32⟩ := binTree_spec hbin hfixed i
  rw [hl] at hup
  refine ⟨s', hs', fun span hspan => ?_⟩
  obtain ⟨msgs, hsend, hrecv⟩ := gywzOtExtFixedIndexMsgs_eq T hbase (hdelta ▸ hots.delta_ne)
    ((p.one_lt_binSize i).trans_le hle) h32 (log2Ceil_of_le (hlow.trans_le hle) hup)
    (hlow.trans_le hle) hup (hsize.trans hl) (seed i) hspan
  refine ⟨msgs, ?_, fun r'' hr'' out hout msgs' hmsgs => ?_⟩
  · rw [hl, Nat.add_sub_cancel, ← hdelta]
    exact hsend
  · obtain rfl : r' = r'' := Except.ok.inj (hr'.symm.trans hr'')
    have hspell : (bitsOf (l + 1) r'.choice).toNat = p.index i :=
      toNat_bitsOf_of_testBit ((hindex i hi).trans_le hn) fun k hk => by
        rw [hbits, hchoice i hi k (by omega)]
    rw [hl, Nat.add_sub_cancel, ← hdelta, ← hspell]
    exact hrecv out hout msgs' fun k hk => hmsgs k (by omega)

/-- The sender after `i` bins of super-batch `sb`. -/
structure SendDone (L : M.Laws) (op : MpfssOp (BitVec (8 * n))) (p : MpFssParam) (r : OtRecvStore)
    (delta : Uint128) (init : ℕ → BitVec (8 * n)) (out : List (BitVec (8 * n))) (sb i : ℕ)
    (x : MpfssSendState n σ) : Prop where
  bins : BinsDone L op p (sendTable T p L delta seed) init out (binTree M p) (sb * 16 + i) x.mem
    x.dpfSum
  length_msgs : x.gywzSendMsgs.length = ceilLog2 p.spVoleSize * 15 + ceilLog2 p.lastSpVoleSize
  msgs : ∀ j < i, FixedMsgs T M p r delta seed (sb * 16 + j) fun k =>
    x.gywzSendMsgs.getD (j * ceilLog2 p.spVoleSize + k) 0

/-- The receiver after `i` bins of super-batch `sb`. -/
structure RecvDone (L : M.Laws) (op : MpfssOp (BitVec (8 * n))) (p : MpFssParam) (delta : Uint128)
    (out : List (BitVec (8 * n))) (sb i : ℕ) (y : MpfssRecvState n σ) : Prop where
  bins : BinsDone L op p (recvTable T p L delta seed p.index) (fun _ => 0) out (binTree M p)
    (sb * 16 + i) y.mem y.dpfSum
  length_indexes : y.indexes.length = p.noiseNum
  indexes : ∀ j < sb * 16 + i, y.indexes[j]? = some (p.index j)

variable {sb : ℕ} {init : ℕ → BitVec (8 * n)} {x : MpfssSendState n σ}

include hots hbin hfixed hindex hchoice hS in
/-- **A bin of the sender.** -/
theorem mpfssSendFixedBin_eq (ht : p.noiseNum < 2 ^ 32) (hsb : sb < superBatchNum p)
    (hi : i < superBound p sb) (hx : SendDone T seed L op p r s.delta init outS sb i x) :
    ∃ x', mpfssSendFixedBin T M op p s seed sb i x = .ok x' ∧
      SendDone T seed L op p r s.delta init outS sb (i + 1) x' := by
  have hlt := batchIdx_lt ht hsb hi
  obtain ⟨m, -, hm, hmi⟩ := superMsgLength_eq ht hsb
  obtain ⟨htree, -, h32⟩ := binTree_spec hbin hfixed (sb * 16 + i)
  obtain ⟨s', hs', hsend⟩ := gywz_fixedMsgs T hots hbin hfixed seed hindex hchoice hlt
  obtain ⟨span, hspan, hlen⟩ := L.span_eq (hx.bins.fits _ hlt)
  obtain ⟨msgs, hmsgs, hfixedMsgs⟩ := hsend span hlen.ge
  obtain ⟨st, sum, hst, hdone⟩ := hx.bins.succ hlt hS hlen htree
    (gywzLeaf T s.delta (seed (sb * 16 + i)) (p.binLength (sb * 16 + i) - 1)) fun j _ => rfl
  have hroom := (hmi i hi).trans (hm.trans hx.length_msgs.ge)
  refine ⟨⟨st, Function.update x.dpfSum (sb * 16 + i) sum,
    overwrite x.gywzSendMsgs (i * ceilLog2 p.spVoleSize) (p.binLength (sb * 16 + i)) msgs⟩, ?_,
    hdone, (length_overwrite _ _ _ _).trans hx.length_msgs, fun j hj => ?_⟩
  · rw [mpfssSendFixedBin, p.log2Ceil_spVoleSize, ok_bind, superBinSize_eq ht hsb hi,
      batchIdx_eq ht hsb hi]
    dsimp only
    rw [p.log2Ceil_binSize, ok_bind, ← binTree, hspan, ok_bind, hs', ok_bind, Nat.mod_eq_of_lt h32,
      hmsgs, ok_bind]
    dsimp only
    rw [writeSpan_eq hroom, ok_bind, hst]
    rfl
  · -- The messages of the bins before end before the messages of this one.
    rcases Nat.lt_or_ge j i with hji | hji
    · have hshort := binLength_of_succ_lt ht hsb (show j + 1 < superBound p sb by omega)
      have hmul := Nat.mul_le_mul_right (ceilLog2 p.spVoleSize) (show j + 1 ≤ i from hji)
      rw [Nat.succ_mul] at hmul
      refine (hx.msgs j hji).congr T seed fun k hk => ?_
      dsimp only
      rw [List.getD_eq_getElem?_getD, getElem?_overwrite_of_notMem (by omega),
        List.getD_eq_getElem?_getD]
    · obtain rfl : j = i := by omega
      refine hfixedMsgs.congr T seed fun k hk => ?_
      dsimp only
      rw [List.getD_eq_getElem?_getD, getElem?_overwrite_of_mem (by omega) (by omega),
        Nat.add_sub_cancel_left]
      rfl

variable {y : MpfssRecvState n σ}

include hots hbin hfixed hindex hchoice hR in
/-- **A bin of the receiver**, from the messages of the sender. -/
theorem mpfssRecvFixedBin_eq (ht : p.noiseNum < 2 ^ 32) (hsb : sb < superBatchNum p)
    (hi : i < superBound p sb) {msgs : ℕ → Uint128}
    (hmsgs : FixedMsgs T M p r s.delta seed (sb * 16 + i) fun k =>
      msgs (i * ceilLog2 p.spVoleSize + k))
    (hy : RecvDone T seed L op p s.delta outR sb i y) :
    ∃ y', mpfssRecvFixedBin T M op p r msgs sb i y = .ok y' ∧
      RecvDone T seed L op p s.delta outR sb (i + 1) y' := by
  have hlt := batchIdx_lt ht hsb hi
  obtain ⟨htree, -, h32⟩ := binTree_spec hbin hfixed (sb * 16 + i)
  obtain ⟨r', -, hr', -, -, -, hsize, hbits⟩ := hots.slice_eq hlt
  obtain ⟨l, hl, -, hn⟩ := p.binLength_spec (sb * 16 + i)
  obtain ⟨span, hspan, hlen⟩ := L.span_eq (hy.bins.fits _ hlt)
  obtain ⟨st, sum, hst, hdone⟩ := hy.bins.succ hlt hR hlen htree
    (fun j => gywzLeaf T s.delta (seed (sb * 16 + i)) (p.binLength (sb * 16 + i) - 1) j ^^^
      if j = p.index (sb * 16 + i) then s.delta else 0) fun j _ => rfl
  have hl31 : p.binLength (sb * 16 + i) ≤ 31 :=
    ceilLog2_le (p.one_lt_binSize _) ((p.binSize_le_last _).trans hbin.le)
  obtain ⟨real, hreal, hrealIndex⟩ := choicesToIndex_eq hsize.ge (by omega)
  have hspell : (bitsOf (p.binLength (sb * 16 + i)) r'.choice).toNat = p.index (sb * 16 + i) :=
    toNat_bitsOf_of_testBit ((hindex _ hlt).trans_le (hl ▸ hn)) fun k hk => by
      rw [hbits, hchoice _ hlt k hk]
  have hget : y.indexes[sb * 16 + i]? =
      some (y.indexes.get ⟨sb * 16 + i, hy.length_indexes ▸ hlt⟩) :=
    List.getElem?_eq_getElem (hy.length_indexes ▸ hlt)
  refine ⟨⟨st, Function.update y.dpfSum (sb * 16 + i) sum,
    y.indexes.set (sb * 16 + i) (p.index (sb * 16 + i))⟩, ?_, hdone,
    (List.length_set ..).trans hy.length_indexes, fun j hj => ?_⟩
  · rw [mpfssRecvFixedBin, p.log2Ceil_spVoleSize, ok_bind, superBinSize_eq ht hsb hi,
      batchIdx_eq ht hsb hi]
    dsimp only
    rw [p.log2Ceil_binSize, ok_bind, ← binTree, hspan, ok_bind, hr', ok_bind, hreal, ok_bind,
      vecGet_of_getElem? hget, ok_bind, vecSetIf_ne hget, ok_bind, Nat.mod_eq_of_lt h32,
      hmsgs r' hr' span hlen.ge _ fun k hk => rfl, ok_bind, hst, hrealIndex, hspell]
    rfl
  · rw [List.getElem?_set]
    split
    · next h => rw [if_pos (by rw [hy.length_indexes]; omega), h]
    · exact hy.indexes j (by omega)

include hots hbin hfixed hindex hchoice hS hR in
/-- **A super-batch.** -/
theorem mpfssSuper_session (ht : p.noiseNum < 2 ^ 32) (hsb : sb < superBatchNum p)
    (hx : SendDone T seed L op p r s.delta init outS sb 0 x)
    (hy : RecvDone T seed L op p s.delta outR sb 0 y) :
    Session False (mpfssSendSuper T M op p s seed sb x) (mpfssRecvSuper T M op p r sb y)
      fun x y => SendDone T seed L op p r s.delta init outS sb (superBound p sb) x ∧
        RecvDone T seed L op p s.delta outR sb (superBound p sb) y := by
  obtain ⟨x', hx', hdoneS⟩ := forLoop_ok (SendDone T seed L op p r s.delta init outS sb) hx
    fun i hi x hx => mpfssSendFixedBin_eq T hots hbin hfixed seed hindex hchoice hS ht hsb hi hx
  obtain ⟨m, hm, hle, hroom⟩ := superMsgLength_eq ht hsb
  have hread : readSpan x'.gywzSendMsgs 0 m 0 = .ok fun k => x'.gywzSendMsgs.getD (0 + k) 0 :=
    if_pos (by have := hdoneS.length_msgs; omega)
  obtain ⟨y', hy', hdoneR⟩ := forLoop_ok (n := superBound p sb)
    (f := mpfssRecvFixedBin T M op p r
      (Bytes.wordAt 16 (blockBytes m fun k => x'.gywzSendMsgs.getD (0 + k) 0)) sb)
    (RecvDone T seed L op p s.delta outR sb) hy fun i hi y hy =>
      mpfssRecvFixedBin_eq T hots hbin hfixed seed hindex hchoice hR ht hsb hi
        ((hdoneS.msgs i hi).congr T seed fun k hk => by
          have := hroom i hi
          rw [wordAt_blockBytes (by omega), Nat.zero_add]) hy
  rw [mpfssSendSuper, mpfssRecvSuper, bind_of_ok hx', bind_of_ok hm, bind_of_ok hread,
    bind_of_ok hm]
  refine .send_recv ?_
  rw [bind_enforce (by rw [length_blockBytes]; omega), hy']
  exact .ret ⟨hdoneS, hdoneR⟩

/-- Both parties when the bins of the first `sb` super-batches are done. -/
def SupersDone (L : M.Laws) (op : MpfssOp (BitVec (8 * n))) (p : MpFssParam) (delta : Uint128)
    (init : ℕ → BitVec (8 * n)) (outS outR : List (BitVec (8 * n))) (sb : ℕ)
    (x : MpfssSendState n σ) (y : MpfssRecvState n σ) : Prop :=
  (BinsDone L op p (sendTable T p L delta seed) init outS (binTree M p)
      (min (sb * 16) p.noiseNum) x.mem x.dpfSum ∧
    x.gywzSendMsgs.length = ceilLog2 p.spVoleSize * 15 + ceilLog2 p.lastSpVoleSize) ∧
  BinsDone L op p (recvTable T p L delta seed p.index) (fun _ => 0) outR (binTree M p)
      (min (sb * 16) p.noiseNum) y.mem y.dpfSum ∧
    y.indexes.length = p.noiseNum ∧ ∀ j < min (sb * 16) p.noiseNum, y.indexes[j]? = some (p.index j)

include hots hbin hfixed hindex hchoice hS hR in
theorem mpfssSuper_supersDone (ht : p.noiseNum < 2 ^ 32) (hsb : sb < superBatchNum p)
    (h : SupersDone T seed L op p s.delta init outS outR sb x y) :
    Session False (mpfssSendSuper T M op p s seed sb x) (mpfssRecvSuper T M op p r sb y)
      (SupersDone T seed L op p s.delta init outS outR (sb + 1)) := by
  have hbound := superBound_eq ht hsb
  have hpos := p.noiseNum_pos
  have hlt : sb * 16 < p.noiseNum := by
    rw [superBatchNum_eq] at hsb
    omega
  have hnow : min (sb * 16) p.noiseNum = sb * 16 := by omega
  have hnext : min ((sb + 1) * 16) p.noiseNum = sb * 16 + superBound p sb := by omega
  obtain ⟨⟨hx, hlen⟩, hy, hlenIdx, hidx⟩ := h
  rw [hnow] at hx hy hidx
  refine (mpfssSuper_session T hots hbin hfixed seed hindex hchoice hS hR ht hsb
    ⟨hx, hlen, fun j hj => absurd hj (by omega)⟩ ⟨hy, hlenIdx, hidx⟩).mono ?_
  rintro x y ⟨hx, hy⟩
  rw [SupersDone, hnext]
  exact ⟨⟨hx.bins, hx.length_msgs⟩, hy.bins, hy.length_indexes, hy.indexes⟩

include hots hbin hfixed hindex hchoice hS hR in
/-- **A run with fixed indexes.** The receiver also learns the indexes. -/
theorem mpfssFixedIndex_session (hop : op.IsGroup) (ht : p.noiseNum < 2 ^ 32)
    (hlen : p.indexes.length = p.noiseNum) {w : List (BitVec (8 * n))}
    (hw : p.noiseNum ≤ w.length) :
    Session False (mpfssSendFixedIndex T M op p s seed w outS) (mpfssRecvFixedIndex T M op p r outR)
      fun a b => MpfssRelated op p p.index w a b.1 ∧ b.2.length = p.noiseNum ∧
        ∀ i < p.noiseNum, b.2[i]? = some (p.index i) := by
  obtain ⟨stS, hstS, houtS, hfitsS⟩ := L.allocFixed_eq hfixed hS
  obtain ⟨stR, hstR, houtR, hfitsR⟩ := L.allocFixed_eq hfixed hR
  have hsizeS : s.size ≥ p.requireOtNum := hots.base.size_eq ▸ hots.size_le
  have hpos := p.noiseNum_pos
  have hnum := superBatchNum_eq p
  have hlast : min (superBatchNum p * 16) p.noiseNum = p.noiseNum := by omega
  rw [mpfssSendFixedIndex, mpfssRecvFixedIndex, bind_enforce p.assumption_eq, bind_enforce hS,
    bind_enforce hw, bind_enforce hsizeS, bind_of_ok p.log2Ceil_spVoleSize,
    bind_of_ok p.log2Ceil_lastSpVoleSize, bind_of_ok hstS, bind_enforce p.assumption_eq,
    bind_enforce hR, bind_enforce hots.size_le, bind_of_ok hstR, forLoop32, forLoop32,
    if_pos (by omega), if_pos (by omega)]
  refine Session.bind (Session.forLoop (SupersDone T seed L op p s.delta
    (fun i => op.sub 0 (w.getD i 0)) outS outR) ?_ fun sb hsb x y h =>
      mpfssSuper_supersDone T hots hbin hfixed seed hindex hchoice hS hR ht hsb h) ?_
  · rw [SupersDone, Nat.zero_mul, Nat.zero_min]
    exact ⟨⟨.zero L houtS hfitsS, List.length_replicate⟩, .zero L houtR hfitsR, hlen,
      fun j hj => absurd hj (by omega)⟩
  · rintro x y ⟨⟨hx, -⟩, hy, hlenIdx, hidx⟩
    rw [hlast] at hx hy hidx
    obtain ⟨b, hb, hrelated⟩ := mpfssCorrectAll_related T seed hS hR hop ht
      (fun i hi => vecGet_of_getElem? (hidx i hi)) hindex hx hy
    refine .send_recv ?_
    rw [bind_enforce (length_sums p x.dpfSum), bind_of_ok hb]
    exact .ret ⟨hrelated, hlenIdx, hidx⟩

end FixedRuns

/-! ### Correctness -/

/-- **A version is sound** for a parameter set: for all groups, weights, seeds and outputs, over
enough correct transfers, both parties complete in every interleaving with related outputs, with the
indexes of the parameters, and with fixed indexes when `GenChoices` has made the choices. -/
def MpfssSound (M : MpfssMem n σ) (p : MpFssParam) : Prop :=
  ∀ (op : MpfssOp (BitVec (8 * n))), op.IsGroup → ∀ (r : OtRecvStore) (s : OtSendStore),
    MpfssOts p r s → ∀ (seed : ℕ → Uint128) (w outS outR : List (BitVec (8 * n))),
    p.noiseNum ≤ w.length → p.mpVoleSize ≤ outS.length → p.mpVoleSize ≤ outR.length →
    Completes (mpfssSend T M op p s seed w outS) (mpfssRecv T M op p r outR)
        (MpfssRelated op p p.index w) ∧
      ∃ c, p.genChoices = .ok c ∧ ((∀ i < p.requireOtNum, r.choice i = c.bit i) →
        Completes (mpfssSendFixedIndex T M op p s seed w outS)
          (mpfssRecvFixedIndex T M op p r outR) fun a b => MpfssRelated op p p.index w a b.1)

section Sound

variable {M} {p} (hlen : p.indexes.length = p.noiseNum)
  (hindex : ∀ i < p.noiseNum, p.index i < p.binSize i) (hbin : p.lastSpVoleSize < 2 ^ 31)

include hlen hindex hbin in
theorem mpfssSound_of_laws (L : M.Laws) (hfixed : L.FixedOk p) (ht : p.noiseNum < 2 ^ 32) :
    MpfssSound T M p := by
  intro op hop r s hots seed w outS outR hw hS hR
  obtain ⟨c, hc, hbit⟩ := p.genChoices_eq hlen hbin.le
  refine ⟨(mpfss_session T hots hbin seed hS hR hop ht hlen hindex hw L).completes, c, hc,
    fun hchoice => Session.completes ?_⟩
  refine (mpfssFixedIndex_session T hots hbin hfixed seed hindex (fun i hi k hk => ?_) hS hR hop ht
    hlen hw).mono fun a b h => h.1
  have := p.slice_le hi
  rw [hchoice _ (by omega), hbit i hi k hk]

theorem MpFssParam.requireOtNum_pos (p : MpFssParam) : 0 < p.requireOtNum := by
  obtain ⟨l, hl, -, -⟩ := p.binLength_spec (p.noiseNum - 1)
  have := p.slice_le (Nat.sub_lt p.noiseNum_pos Nat.one_pos)
  omega

theorem MpFssParam.requireOtNum_lt (p : MpFssParam) : p.requireOtNum < 2 ^ 64 := by
  have hlog : ∀ x, 1 < x → ceilLog2 x ≤ x := fun x hx => ceilLog2_le hx Nat.lt_two_pow_self.le
  have hlast := hlog _ (p.one_lt_spVoleSize.trans_le p.spVoleSize_le_last)
  have hmul := Nat.mul_le_mul_right (p.noiseNum - 1) (hlog _ p.one_lt_spVoleSize)
  have hle := p.mul_spVoleSize_le
  have h64 := p.mpVoleSize_lt
  rw [requireOtNum]
  rw [lastSpVoleSize] at hlast ⊢
  rw [Nat.mul_comm p.spVoleSize] at hmul
  omega

theorem exists_mpfssOts (p : MpFssParam) (c : ℕ → Bool) :
    ∃ r s, MpfssOts p r s ∧ ∀ i < p.requireOtNum, r.choice i = c i := by
  obtain ⟨r, s, hbase, hdelta, hr, hs, h64, hsize, hchoice⟩ :=
    exists_compactOts p.requireOtNum_pos p.requireOtNum_lt c
  exact ⟨r, s, ⟨hbase, hdelta, hr, hs, h64, hsize.ge⟩, hchoice⟩

/-- The operations of the default group. -/
def xorOp (n : ℕ) : MpfssOp (BitVec (8 * n)) := ⟨(· ^^^ ·), (· ^^^ ·)⟩

theorem xorOp_isGroup (n : ℕ) : (xorOp n).IsGroup where
  add_assoc := BitVec.xor_assoc
  add_comm := BitVec.xor_comm
  sub_add a b := by simp [xorOp]
  add_sub a b := by simp [xorOp]

theorem not_mpfssSound_of_noiseNum (L : M.Laws) (h : 2 ^ 32 ≤ p.noiseNum) : ¬MpfssSound T M p := by
  intro hsound
  obtain ⟨r, s, hots, -⟩ := exists_mpfssOts p fun _ => false
  have hsizeS : s.size ≥ p.requireOtNum := hots.base.size_eq ▸ hots.size_le
  have hout : p.mpVoleSize ≤ (List.replicate p.mpVoleSize (0 : BitVec (8 * n))).length := by simp
  have hw : p.noiseNum ≤ (List.replicate p.noiseNum (0 : BitVec (8 * n))).length := by simp
  obtain ⟨st, hst, -⟩ := L.alloc_eq hout
  obtain ⟨hcomplete, -⟩ :=
    hsound (xorOp n) (xorOp_isGroup n) r s hots (fun _ => 0) _ _ _ hw hout hout
  rw [mpfssSend, mpfssRecv, bind_enforce p.assumption_eq, bind_enforce hout, bind_enforce hw,
    bind_enforce hsizeS, bind_of_ok hst, bind_enforce p.assumption_eq, bind_enforce hout,
    bind_enforce hots.size_le, bind_of_ok hst, forLoop32, forLoop32, if_neg (by omega),
    if_neg (by omega)] at hcomplete
  exact not_completes_throw _ _ hcomplete

include hbin in
theorem allocFixed_of_large (hlarge : 2 ^ 30 < p.lastSpVoleSize) (out : List (BitVec (8 * 8))) :
    mpfssMem64.allocFixed p out = .error (.enforceNotMet "size >= 0" "") := by
  have hlog : ceilLog2 p.lastSpVoleSize = 31 := by
    obtain ⟨l, hl, -, hle⟩ := ceilLog2_spec (show 1 < p.lastSpVoleSize by omega)
    have hlt : 30 < l + 1 := (Nat.pow_lt_pow_iff_right (by omega)).mp (hlarge.trans_le hle)
    have := ceilLog2_le (show 1 < p.lastSpVoleSize by omega) hbin.le
    omega
  rw [mpfssMem64]
  dsimp only
  rw [p.log2Ceil_spVoleSize, ok_bind, p.log2Ceil_lastSpVoleSize, ok_bind,
    max_eq_right (ceilLog2_mono p.one_lt_spVoleSize p.spVoleSize_le_last), hlog, newBuffer,
    enforce_of_neg (by decide)]
  rfl

include hbin in
theorem not_mpfssSound64_of_large (hlarge : 2 ^ 30 < p.lastSpVoleSize) :
    ¬MpfssSound T mpfssMem64 p := by
  intro hsound
  have hout : p.mpVoleSize ≤ (List.replicate p.mpVoleSize (0 : BitVec (8 * 8))).length := by simp
  have hw : p.noiseNum ≤ (List.replicate p.noiseNum (0 : BitVec (8 * 8))).length := by simp
  obtain ⟨r, s, hots, -⟩ := exists_mpfssOts p fun _ => false
  obtain ⟨-, c, hc, -⟩ :=
    hsound (xorOp 8) (xorOp_isGroup 8) r s hots (fun _ => 0) _ _ _ hw hout hout
  obtain ⟨r, s, hots, hchoice⟩ := exists_mpfssOts p c.bit
  have hsizeS : s.size ≥ p.requireOtNum := hots.base.size_eq ▸ hots.size_le
  obtain ⟨-, c', hc', hcomplete⟩ :=
    hsound (xorOp 8) (xorOp_isGroup 8) r s hots (fun _ => 0) _ _ _ hw hout hout
  obtain rfl : c = c' := Except.ok.inj (hc.symm.trans hc')
  have hfixed := hcomplete hchoice
  rw [mpfssSendFixedIndex, mpfssRecvFixedIndex, bind_enforce p.assumption_eq, bind_enforce hout,
    bind_enforce hw, bind_enforce hsizeS, bind_of_ok p.log2Ceil_spVoleSize,
    bind_of_ok p.log2Ceil_lastSpVoleSize, bind_of_error (allocFixed_of_large hbin hlarge _),
    bind_enforce p.assumption_eq, bind_enforce hout, bind_enforce hots.size_le,
    bind_of_error (allocFixed_of_large hbin hlarge _)] at hfixed
  exact not_completes_throw _ _ hfixed

end Sound

/-- **Multi-point function secret sharing.** For parameters with bins smaller than `2 ^ 31` and
indexes in the bins, all versions are sound if and only if the noise number fits the `uint32_t`
counters of the loops, and no bin has more than `2 ^ 30` entries: for larger ones the version with
fixed indexes for `64` bits computes the size of its buffer as a negative `int`. -/
theorem mpfssSound_iff {p : MpFssParam} (hlen : p.indexes.length = p.noiseNum)
    (hindex : ∀ i < p.noiseNum, p.index i < p.binSize i) (hbin : p.lastSpVoleSize < 2 ^ 31) :
    (MpfssSound T mpfssMem128 p ∧ MpfssSound T mpfssMem64 p) ↔
      p.noiseNum < 2 ^ 32 ∧ p.lastSpVoleSize ≤ 2 ^ 30 := by
  constructor
  · rintro ⟨h128, h64⟩
    refine ⟨?_, ?_⟩
    · by_contra h
      exact not_mpfssSound_of_noiseNum T mpfssMem128Laws (Nat.not_lt.mp h) h128
    · by_contra h
      exact not_mpfssSound64_of_large T hbin (Nat.not_le.mp h) h64
  · rintro ⟨ht, hlast⟩
    exact ⟨mpfssSound_of_laws T hlen hindex hbin mpfssMem128Laws trivial ht,
      mpfssSound_of_laws T hlen hindex hbin mpfssMem64Laws hlast ht⟩

/-- Two bins, the second one larger. -/
def mpFssParamFive : MpFssParam :=
  ⟨2, 5, .regularNoise, [1, 2], false, rfl, by decide, by decide, by decide⟩

theorem mpfssSound_five : MpfssSound default mpfssMem128 mpFssParamFive ∧
    MpfssSound default mpfssMem64 mpFssParamFive :=
  (mpfssSound_iff default rfl (by decide) (by decide)).mpr ⟨by decide, by decide⟩

/-- One bin of `2 ^ 30 + 1` entries. -/
def mpFssParamLarge : MpFssParam :=
  ⟨1, 2 ^ 30 + 1, .regularNoise, [0], false, rfl, by decide, by decide, by decide⟩

theorem not_mpfssSound_large : mpFssParamLarge.indexes.length = mpFssParamLarge.noiseNum ∧
    (∀ i < mpFssParamLarge.noiseNum, mpFssParamLarge.index i < mpFssParamLarge.binSize i) ∧
    mpFssParamLarge.lastSpVoleSize < 2 ^ 31 ∧ ¬MpfssSound default mpfssMem64 mpFssParamLarge :=
  ⟨rfl, by decide, by decide, not_mpfssSound64_of_large default (by decide) (by decide)⟩

end Yacl.Crypto
