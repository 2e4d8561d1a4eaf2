import Mathlib.Data.List.GetD
import Yacl.Kernel.Ferret

/-!
# Correctness of Ferret

Ferret keeps a relation between the blocks of the two parties: the block of the sender is even, and
that of the receiver differs from it by `delta` exactly if it is odd (`Cot`). The relation is kept
by exclusive-or, so that it goes through the linear code whatever the code is, and the trees of the
single-point COTs have it at every leaf. A batch therefore turns related seeds and transfers into
related outputs (`ferretBatch_session`), and the tail of its output into the seeds and the transfers
of the next one (`ferretLoop_session`).

The number of batches is rounded up in 64 bits. If the sum wraps around, **no batch runs**, and both
parties return what was in the memory of their output (`ferretOtExt_correct_iff`).
-/

open Bits Loop TwoParty Proc Yacl.Math

namespace Yacl.Crypto

/-! ### Correlated blocks -/

/-- The blocks of one compact transfer: the choice is the low bit of the receiver's block. -/
def Cot (delta s r : Uint128) : Prop :=
  s.getLsbD 0 = false ∧ r = s ^^^ if r.getLsbD 0 then delta else 0

variable {delta : Uint128}

theorem ne_zero_of_odd (hodd : delta.getLsbD 0 = true) : delta ≠ 0 := by
  rintro rfl
  contradiction

theorem Cot.of_choice {s : Uint128} (hodd : delta.getLsbD 0 = true) (hs : s.getLsbD 0 = false)
    (b : Bool) : Cot delta s (s ^^^ if b then delta else 0) := by
  refine ⟨hs, ?_⟩
  have hlsb : (s ^^^ if b then delta else 0).getLsbD 0 = b := by
    rw [BitVec.getLsbD_xor, hs]
    cases b <;> simp [hodd]
  rw [hlsb]

/-- **Sums of transfers** are transfers. -/
theorem Cot.xor {s r s' r' : Uint128} (h : Cot delta s r) (h' : Cot delta s' r') :
    Cot delta (s ^^^ s') (r ^^^ r') := by
  obtain ⟨hs, hr⟩ := h
  obtain ⟨hs', hr'⟩ := h'
  refine ⟨by rw [BitVec.getLsbD_xor, hs, hs']; rfl, ?_⟩
  rw [BitVec.getLsbD_xor]
  generalize r.getLsbD 0 = b at hr ⊢
  generalize r'.getLsbD 0 = b' at hr' ⊢
  rw [hr, hr']
  have hcomm : ∀ x y : Uint128, s ^^^ x ^^^ (s' ^^^ y) = s ^^^ s' ^^^ (x ^^^ y) := by
    intro x y
    rw [BitVec.xor_assoc, BitVec.xor_assoc, ← BitVec.xor_assoc x, BitVec.xor_comm x,
      BitVec.xor_assoc]
  rw [hcomm]
  cases b <;> cases b' <;> simp

/-- The entries below `k` are correlated. -/
def CotsBelow (delta : Uint128) (k : ℕ) (a b : List Uint128) : Prop :=
  ∀ i < k, Cot delta (a.getD i 0) (b.getD i 0)

theorem forall₂_cot_iff {a b : List Uint128} :
    List.Forall₂ (Cot delta) a b ↔ a.length = b.length ∧ CotsBelow delta a.length a b := by
  rw [List.forall₂_iff_get]
  refine and_congr_right fun hlen => ⟨fun h i hi => ?_, fun h i hi hi' => ?_⟩
  · rw [List.getD_eq_getElem _ _ hi, List.getD_eq_getElem _ _ (hlen ▸ hi)]
    exact h i hi (hlen ▸ hi)
  · have hcot := h i hi
    rw [List.getD_eq_getElem _ _ hi, List.getD_eq_getElem _ _ hi'] at hcot
    exact hcot

theorem length_putSubspan (out : List Uint128) (pos : ℕ) (output : List Uint128) :
    (putSubspan out pos output).length = out.length :=
  length_overwrite ..

theorem getD_putSubspan {out output : List Uint128} {pos i : ℕ}
    (hpos : pos + output.length ≤ out.length) :
    (putSubspan out pos output).getD i 0 =
      if pos ≤ i ∧ i < pos + output.length then output.getD (i - pos) 0 else out.getD i 0 := by
  rw [putSubspan, List.getD_eq_getElem?_getD]
  split
  · next h =>
    rw [getElem?_overwrite_of_mem (by omega) h]
    rfl
  · next h => rw [getElem?_overwrite_of_notMem h, List.getD_eq_getElem?_getD]

theorem CotsBelow.putSubspan {pos : ℕ} {a b a' b' : List Uint128} (h : CotsBelow delta pos a b)
    (h' : List.Forall₂ (Cot delta) a' b') (ha : pos + a'.length ≤ a.length)
    (hb : pos + a'.length ≤ b.length) :
    CotsBelow delta (pos + a'.length) (putSubspan a pos a') (putSubspan b pos b') := by
  obtain ⟨hlen, hcots⟩ := forall₂_cot_iff.1 h'
  intro i hi
  rw [getD_putSubspan ha, getD_putSubspan (hlen ▸ hb), ← hlen]
  split
  · next hmem => exact hcots _ (by omega)
  · next hmem => exact h i (by omega)

/-! ### Correlated stores -/

/-- **Compact transfers.** The windows of the two stores lie at the same place of buffers that are
correlated. -/
structure CompactCots (s : OtSendStore) (r : OtRecvStore) : Prop where
  send_type : s.type = .compact
  recv_type : r.type = .compact
  odd : s.delta.getLsbD 0 = true
  useCtr_eq : s.useCtr = r.useCtr
  useSize_eq : s.useSize = r.useSize
  cots : List.Forall₂ (Cot s.delta) s.blkBuf r.blkBuf
  lt : r.blkBuf.length < 2 ^ 64

namespace CompactCots

variable {s : OtSendStore} {r : OtRecvStore}

theorem delta_ne_zero (h : CompactCots s r) : s.delta ≠ 0 := ne_zero_of_odd h.odd

theorem block (h : CompactCots s r) {i : ℕ} (hi : i < r.size) :
    ∃ x, (∀ b : Bool, s.getBlock i b.toNat = .ok (x ^^^ if b then s.delta else 0)) ∧
      r.getBlock i = .ok (r.block i) ∧ Cot s.delta x (r.block i) := by
  have huse : i < r.useSize := hi
  have hle := r.use_le
  have hbuf := r.bufSize_le
  have hlen := h.cots.length_eq
  have hlt := h.lt
  have hctr := h.useCtr_eq
  refine ⟨_, OtSendStore.getBlock_of_compact h.send_type h.delta_ne_zero (h.useSize_eq ▸ huse)
    (by rw [h.useSize_eq]; omega), OtRecvStore.getBlock_eq hi, ?_⟩
  rw [OtRecvStore.block, ← hctr]
  exact (forall₂_cot_iff.1 h.cots).2 (s.useCtr + i) (by omega)

theorem baseOts (h : CompactCots s r) : BaseOts r s := by
  refine ⟨?_, fun i hi => ?_⟩
  · rw [← OtSendStore.useSize_eq_size h.send_type, h.useSize_eq]
    rfl
  · obtain ⟨x, hx, -, hcot⟩ := h.block hi
    refine ⟨_, hx, ?_⟩
    rw [OtRecvStore.choice_eq_ite, if_pos h.recv_type]
    exact hcot.2

theorem slice (h : CompactCots s r) {b len : ℕ} {s' : OtSendStore} {r' : OtRecvStore}
    (hs : s.slice b (b + len) = .ok s') (hr : r.slice b (b + len) = .ok r') :
    CompactCots s' r' ∧ s'.delta = s.delta ∧ r'.size = len := by
  obtain ⟨⟨hruse, hrsize, -, hrbufSize⟩, hrtype, -, hrbuf⟩ := OtRecvStore.of_init hr
  have hend : b + len < 2 ^ 64 := by
    have hbuf := r'.bufSize_le
    rw [hrbuf, hrbufSize] at hbuf
    exact hbuf.trans_lt h.lt
  obtain ⟨⟨hsuse, hssize, -⟩, hstype, hsdelta, hsbuf⟩ := OtSendStore.of_slice h.send_type hend hs
  rw [sub64_of_le (Nat.le_add_right b len) hend, Nat.add_sub_cancel_left] at hrsize
  refine ⟨⟨hstype, hrtype.trans h.recv_type, hsdelta ▸ h.odd, hsuse.trans hruse.symm,
    hssize.trans hrsize.symm, ?_, hrbuf ▸ h.lt⟩, hsdelta, hrsize⟩
  rw [hsbuf, hrbuf, hsdelta]
  exact h.cots

theorem of_make {delta : Uint128} {a b : List Uint128} (hodd : delta.getLsbD 0 = true)
    (hcots : List.Forall₂ (Cot delta) a b) (hlt : b.length < 2 ^ 64)
    (hs : makeCompactOtSendStore a delta = .ok s) (hr : makeCompactOtRecvStore b = .ok r) :
    CompactCots s r ∧ s.delta = delta := by
  obtain ⟨⟨hsuse, hssize, -⟩, hstype, hsdelta, hsbuf⟩ := OtSendStore.of_init hs
  obtain ⟨⟨hruse, hrsize, -⟩, hrtype, -, hrbuf⟩ := OtRecvStore.of_init hr
  refine ⟨⟨hstype, hrtype, hsdelta ▸ hodd, hsuse.trans hruse.symm, ?_, ?_, hrbuf ▸ hlt⟩, hsdelta⟩
  · rw [hssize, hrsize, hcots.length_eq]
  · rw [hsbuf, hrbuf, hsdelta]
    exact hcots

end CompactCots

/-! ### One bin -/

section Sessions

variable (T : Tools) {s : OtSendStore} {r : OtRecvStore}

/-- The heights of the trees, for numbers of leaves that are passed in 32 bits. -/
theorem ceilLog2_mod_ne {n : ℕ} (h : 2 ^ 32 ≤ n) (h0 : n % 2 ^ 32 ≠ 0) :
    ceilLog2 (n % 2 ^ 32) ≠ ceilLog2 n := by
  have hlt : n % 2 ^ 32 < 2 ^ 32 := Nat.mod_lt _ (by omega)
  obtain ⟨l, hl, -, hn⟩ := ceilLog2_spec (show 1 < n by omega)
  have hl32 : 32 < l + 1 :=
    (Nat.pow_lt_pow_iff_right (by omega)).mp (lt_of_lt_of_le (by omega : 2 ^ 32 < n) hn)
  have hle : ceilLog2 (n % 2 ^ 32) ≤ 32 := by
    rcases eq_or_ne (n % 2 ^ 32) 1 with h1 | h1
    · rw [h1]
      decide
    · exact ceilLog2_le (by omega) hlt.le
  omega

variable {outS outR : List Uint128}

/-- The programs of one bin return a piece of the right size, or one of them throws. -/
theorem gywzFerret_session (h : CompactCots s r) {n : ℕ} (hsize : r.size = ceilLog2 n)
    (seed : Uint128) (hS : outS.length = n) (hR : outR.length = n) :
    Session True (gywzOtExtSendFerret T seed s (n % 2 ^ 32) outS)
      (gywzOtExtRecvFerret T r (n % 2 ^ 32) outR) fun a b =>
        a.length = n ∧ List.Forall₂ (Cot s.delta) a b := by
  by_cases hgood : 1 < n ∧ n < 2 ^ 32
  · obtain ⟨h1, h32⟩ := hgood
    rw [Nat.mod_eq_of_lt h32]
    obtain ⟨l, hlog, -⟩ := log2Ceil_spec h1
    have hl : ceilLog2 n = l + 1 := ((of_log2Ceil hlog).2).symm
    refine (gywzOtExtFerret_session T h.baseOts h.odd h.recv_type h.send_type h1 h32 hlog
      (hsize.trans hl) seed hS.ge hR.ge).of_false.mono ?_
    rintro _ _ ⟨rfl, rfl⟩
    refine ⟨by rw [length_overwrite, hS], forall₂_cot_iff.2 ⟨?_, fun i hi => ?_⟩⟩
    · rw [length_overwrite, length_overwrite, hS, hR]
    · rw [length_overwrite, hS] at hi
      rw [getD_overwrite hS.ge hi, getD_overwrite hR.ge hi]
      have hcot := Cot.of_choice h.odd (ferretLeaf_even T s.delta seed l i)
        (decide (i = (bitsOf (l + 1) r.choice).toNat))
      simpa using hcot
  · -- the sender's checks fail
    refine .bind_except_left trivial fun height hheight => ?_
    obtain ⟨hne, hheight⟩ := of_log2Ceil hheight
    refine .bind_except_left trivial fun _ hsend => ?_
    refine .bind_except_left trivial fun _ hone => ?_
    have hsend := of_enforce hsend
    rw [h.baseOts.size_eq, hsize, hheight] at hsend
    have h1 : 1 < n % 2 ^ 32 := of_enforce hone
    refine absurd hsend.symm (ceilLog2_mod_ne ?_ hne)
    by_contra hlt
    rw [Nat.mod_eq_of_lt (by omega)] at h1
    exact hgood ⟨h1, by omega⟩

/-- The outputs of the two parties up to `pos`. -/
structure OutputsBelow (delta : Uint128) (len pos : ℕ) (a b : List Uint128) : Prop where
  send_length : a.length = len
  recv_length : b.length = len
  cots : CotsBelow delta pos a b

theorem spCot_session (h : CompactCots s r) {size pos len : ℕ} (hsize : r.size = ceilLog2 size)
    (hpos : pos + size ≤ len) (seed : Uint128) (hout : OutputsBelow s.delta len pos outS outR) :
    Session True (spCotSend T seed s size pos outS) (spCotRecv T r size pos outR)
      (OutputsBelow s.delta len (pos + size)) := by
  obtain ⟨hS, hR, hcots⟩ := hout
  obtain ⟨spanS, hspanS, hlenS⟩ := subspan_eq (show pos + size ≤ outS.length by omega)
  obtain ⟨spanR, hspanR, hlenR⟩ := subspan_eq (show pos + size ≤ outR.length by omega)
  rw [spCotSend, spCotRecv, hspanS, hspanR]
  refine (gywzFerret_session T h hsize seed hlenS hlenR).bind ?_
  rintro a b ⟨ha, hab⟩
  refine .ret ⟨(length_putSubspan ..).trans hS, (length_putSubspan ..).trans hR, ?_⟩
  rw [← ha]
  exact hcots.putSubspan hab (by omega) (by omega)

/-! ### The multi-point COT -/

variable {idxRange idxNum spcotSize : ℕ}

theorem MpCotParam.Fits.idxRange_eq {p : MpCotParam} (h : p.Fits idxRange idxNum spcotSize) :
    (p.batchNum - 1) * p.batchSize + p.lastSize = idxRange := by
  have hpos := h.idxRange_pos
  have hdiv := Nat.div_add_mod' (idxRange - 1) spcotSize
  rw [h.batchNum_eq, h.lastSize_eq, h.batchSize_eq, Nat.add_sub_cancel_left]
  omega

variable {delta : Uint128}

theorem OutputsBelow.vecSet {x y : Uint128} {len pos : ℕ} {a b a' b' : List Uint128}
    (h : OutputsBelow delta len pos a b) (hcot : Cot delta x y) (ha : vecSet a pos x = .ok a')
    (hb : vecSet b pos y = .ok b') : OutputsBelow delta len (pos + 1) a' b' := by
  obtain ⟨hposA, rfl⟩ := of_vecSet ha
  obtain ⟨hposB, rfl⟩ := of_vecSet hb
  refine ⟨by rw [List.length_set, h.send_length], by rw [List.length_set, h.recv_length], ?_⟩
  intro i hi
  rw [List.getD_eq_getElem?_getD, List.getD_eq_getElem?_getD, List.getElem?_set,
    List.getElem?_set]
  rcases Nat.lt_succ_iff_lt_or_eq.mp hi with hlt | rfl
  · rw [if_neg (by omega), if_neg (by omega)]
    exact h.cots i hlt
  · rw [if_pos rfl, if_pos rfl, if_pos hposA, if_pos hposB]
    exact hcot

theorem mpCotLast_session (h : CompactCots s r) {p : MpCotParam}
    (hp : p.Fits idxRange idxNum spcotSize) (seed : Uint128)
    (hout : OutputsBelow s.delta idxRange ((p.batchNum - 1) * p.batchSize) outS outR) :
    Session True (mpCotLastSend T seed s p outS) (mpCotLastRecv T r p outR)
      (OutputsBelow s.delta idxRange idxRange) := by
  have hrange := hp.idxRange_eq
  rw [mpCotLastSend, mpCotLastRecv]
  by_cases hone : p.lastSize = 1
  · rw [if_pos hone, if_pos hone]
    refine .bind_except_left trivial fun x hx => ?_
    refine .bind_except_right trivial fun y hy => ?_
    obtain ⟨x', hx', hy', hcot⟩ := h.block (of_enforce_bind hy).1
    obtain rfl : x = x' := by
      have hx'' := (hx' false).symm.trans hx
      exact (Except.ok.inj hx'').symm.trans (BitVec.xor_zero)
    obtain rfl : y = r.block _ := Except.ok.inj (hy.symm.trans hy')
    refine .except_both trivial fun a b ha hb => ?_
    have hset := hout.vecSet hcot ha hb
    rw [hone] at hrange
    rwa [hrange] at hset
  · rw [if_neg hone, if_neg hone]
    refine .bind_except_left trivial fun cotS hcotS => ?_
    refine .bind_except_right trivial fun cotR hcotR => ?_
    obtain ⟨hcots, hdelta, hsize⟩ := h.slice hcotS hcotR
    have hbin := spCot_session T hcots (hsize.trans hp.lastLength_eq) hrange.le seed
      (hdelta.symm ▸ hout)
    rwa [hrange, hdelta] at hbin

theorem mpCotCheck_session (syncSeed : Uint128) (p : MpCotParam) (outS outR : List Uint128) :
    Session True (mpCotCheckSend T syncSeed s p outS) (mpCotCheckRecv T r p outR)
      fun _ _ => True := by
  refine .bind_except_left trivial fun cotS _ => ?_
  refine .bind_except_right trivial fun cotR _ => ?_
  refine (syncSeed_session T syncSeed).of_false.bind fun seed _ _ => ?_
  refine .bind_except_right trivial fun bits _ => ?_
  refine .bind_except_right trivial fun choices _ => ?_
  refine .bind_except_right trivial fun diff _ => ?_
  refine .bind_except_right trivial fun coef _ => ?_
  refine .recv_send ?_
  refine .bind_except_left trivial fun choices' _ => ?_
  refine .bind_except_left trivial fun data _ => ?_
  refine .bind_except_left trivial fun diff' _ => ?_
  refine Session.send_recv ?_
  exact .except_right trivial fun _ _ => trivial

/-- **The multi-point COT**: all entries of the outputs are correlated. -/
theorem mpCotRN_session (h : CompactCots s r) (seed : ℕ → Uint128) (syncSeed : Uint128)
    (hS : outS.length = idxRange) (hR : outR.length = idxRange) (mal : Bool) :
    Session True (mpCotRNSend T seed syncSeed s idxRange idxNum spcotSize outS mal)
      (mpCotRNRecv T r idxRange idxNum spcotSize outR mal)
      (fun a b => a.length = idxRange ∧ List.Forall₂ (Cot s.delta) a b) := by
  rw [mpCotRNRecv]
  refine .bind_except_left trivial fun p hmake => ?_
  rw [bind_of_ok hmake]
  have hp := MpCotParam.of_make hmake
  have hrange := hp.idxRange_eq
  -- all bins but the last one
  refine Session.bind (Session.forLoop
    (fun i a b => OutputsBelow s.delta idxRange (i * p.batchSize) a b) ⟨hS, hR, ?_⟩ ?_) ?_
  · intro i hi
    omega
  · intro i hi a b hab
    refine .bind_except_left trivial fun cotS hcotS => ?_
    refine .bind_except_right trivial fun cotR hcotR => ?_
    obtain ⟨hcots, hdelta, hsize⟩ := h.slice hcotS hcotR
    have hle : i * p.batchSize + p.batchSize ≤ idxRange := by
      have hmul := Nat.mul_le_mul_right p.batchSize hi
      rw [Nat.succ_mul] at hmul
      omega
    have hbin := spCot_session T hcots (hsize.trans (hp.batchSize_eq ▸ hp.batchLength_eq)) hle
      (seed i) (hdelta.symm ▸ hab)
    rwa [hdelta, ← Nat.succ_mul] at hbin
  · intro a b hab
    refine (mpCotLast_session T h hp (seed (p.batchNum - 1)) hab).bind fun a b hab => ?_
    have hres : a.length = idxRange ∧ List.Forall₂ (Cot s.delta) a b := by
      refine ⟨hab.send_length, forall₂_cot_iff.2 ⟨?_, ?_⟩⟩
      · rw [hab.send_length, hab.recv_length]
      · rw [hab.send_length]
        exact hab.cots
    cases mal with
    | true => exact (mpCotCheck_session T syncSeed p a b).bind fun _ _ _ => .ret hres
    | false => exact .ret hres

/-! ### The batches -/

section Batches

variable {lpnParam : LpnParam} {sizes : FerretSizes} {llc : LocalLinearCode} {otNum : ℕ}
  {delta : Uint128}

/-- Related states of the two parties: the transfers and the seeds of the next batch. -/
structure RelatedSeeds (delta : Uint128) (stS : FerretState OtSendStore)
    (stR : FerretState OtRecvStore) : Prop where
  cotMpcot : CompactCots stS.cotMpcot stR.cotMpcot
  delta_eq : stS.cotMpcot.delta = delta
  working : List.Forall₂ (Cot delta) stS.working stR.working

/-- **One batch** turns related seeds into related outputs. -/
theorem ferretBatch_session (mal : Bool) (rnd : FerretRandom) {stS : FerretState OtSendStore}
    {stR : FerretState OtRecvStore} (h : RelatedSeeds delta stS stR) {i : ℕ}
    (hS : i * sizes.batchSize + batchOtNum lpnParam sizes otNum i ≤ stS.out.length)
    (hR : i * sizes.batchSize + batchOtNum lpnParam sizes otNum i ≤ stR.out.length) :
    Session True
      (ferretBatch T (ferretMpCotSend T lpnParam mal rnd) lpnParam sizes llc otNum i stS)
      (ferretBatch T (ferretMpCotRecv T lpnParam mal) lpnParam sizes llc otNum i stR)
      fun a b => a.length = batchOtNum lpnParam sizes otNum i ∧ List.Forall₂ (Cot delta) a b := by
  obtain ⟨spanS, hspanS, hlenS⟩ := subspan_eq hS
  obtain ⟨spanR, hspanR, hlenR⟩ := subspan_eq hR
  rw [ferretBatch, ferretBatch, bind_of_ok hspanS, bind_of_ok hspanR]
  have hmpCot : Session True
      (ferretMpCotSend T lpnParam mal rnd i (batchOtNum lpnParam sizes otNum i) stS.cotMpcot spanS)
      (ferretMpCotRecv T lpnParam mal i (batchOtNum lpnParam sizes otNum i) stR.cotMpcot spanR)
      fun a b => a.length = batchOtNum lpnParam sizes otNum i ∧ List.Forall₂ (Cot delta) a b := by
    rw [ferretMpCotSend, ferretMpCotRecv]
    cases lpnParam.noiseAsm with
    | regularNoise =>
      rw [← h.delta_eq]
      exact mpCotRN_session T h.cotMpcot (rnd.spcot i) (rnd.check i) hlenS hlenR mal
    | uniformNoise => exact .throw_left trivial
  refine hmpCot.bind ?_
  rintro a b ⟨ha, hab⟩
  refine .except_both trivial fun a' b' ha' hb' => ⟨?_, ?_⟩
  · rw [LocalLinearCode.length_of_encode T ha', ha]
  · exact LocalLinearCode.encode_rel T (fun _ _ _ _ => Cot.xor) h.working hab ha' hb'

theorem ferretTail_related {a b : List Uint128} (hodd : delta.getLsbD 0 = true)
    (hab : List.Forall₂ (Cot delta) a b) {tailS tailR : List Uint128 × List Uint128}
    (hS : ferretTail lpnParam sizes a = .ok tailS) (hR : ferretTail lpnParam sizes b = .ok tailR)
    (hlt : sizes.mpcotCotNum < 2 ^ 64) {s : OtSendStore} {r : OtRecvStore}
    (hs : makeCompactOtSendStore tailS.2 delta = .ok s)
    (hr : makeCompactOtRecvStore tailR.2 = .ok r) (outS outR : List Uint128) :
    RelatedSeeds delta ⟨outS, tailS.1, s⟩ ⟨outR, tailR.1, r⟩ := by
  obtain ⟨_, -, hS⟩ := of_bind_eq_ok hS
  obtain ⟨_, -, hR⟩ := of_bind_eq_ok hR
  obtain rfl := Except.ok.inj hS
  obtain rfl := Except.ok.inj hR
  have hlen : ((b.drop (sizes.batchSize + lpnParam.k)).take sizes.mpcotCotNum).length < 2 ^ 64 := by
    rw [List.length_take]
    omega
  obtain ⟨hcots, hdelta⟩ := CompactCots.of_make hodd
    (List.forall₂_take _ (List.forall₂_drop _ hab)) hlen hs hr
  exact ⟨hcots, hdelta, List.forall₂_take _ (List.forall₂_drop _ hab)⟩

/-- **All batches.** The outputs are related up to the current batch, and the batches that are left
are enough for the rest. -/
theorem ferretLoop_session (mal : Bool) (rnd : FerretRandom) (hodd : delta.getLsbD 0 = true)
    (hlt : sizes.mpcotCotNum < 2 ^ 64) (hle : sizes.batchSize ≤ lpnParam.n) {rest i : ℕ}
    {stS : FerretState OtSendStore} {stR : FerretState OtRecvStore}
    (h : RelatedSeeds delta stS stR) (hS : otNum ≤ stS.out.length) (hR : otNum ≤ stR.out.length)
    (hi : i * sizes.batchSize ≤ otNum) (hrest : otNum ≤ (i + rest) * sizes.batchSize)
    (hcots : CotsBelow delta (i * sizes.batchSize) stS.out stR.out) :
    Session True
      (ferretLoop T (ferretMpCotSend T lpnParam mal rnd) (makeCompactOtSendStore · delta) lpnParam
        sizes llc otNum rest i stS)
      (ferretLoop T (ferretMpCotRecv T lpnParam mal) makeCompactOtRecvStore lpnParam sizes llc
        otNum rest i stR)
      fun a b => a.length = stS.out.length ∧ b.length = stR.out.length ∧
        CotsBelow delta otNum a b := by
  induction rest generalizing i stS stR with
  | zero =>
    refine .ret ⟨rfl, rfl, fun j hj => hcots j ?_⟩
    rw [Nat.add_zero] at hrest
    omega
  | succ rest ih =>
    have hnum : batchOtNum lpnParam sizes otNum i ≤ otNum - i * sizes.batchSize :=
      Nat.min_le_right _ _
    refine (ferretBatch_session T mal rnd h (by omega) (by omega)).bind ?_
    rintro a b ⟨ha, hab⟩
    have hput := hcots.putSubspan hab (by omega) (by omega)
    by_cases hmore : otNum - i * sizes.batchSize > batchOtNum lpnParam sizes otNum i
    · rw [if_pos hmore, if_pos hmore]
      have hn : batchOtNum lpnParam sizes otNum i = lpnParam.n := by
        rw [batchOtNum] at hmore ⊢
        omega
      have hsucc : (i + 1) * sizes.batchSize = i * sizes.batchSize + sizes.batchSize :=
        Nat.succ_mul ..
      refine .bind_except_left trivial fun tailS htailS => ?_
      refine .bind_except_left trivial fun s hs => ?_
      refine .bind_except_right trivial fun tailR htailR => ?_
      refine .bind_except_right trivial fun r hr => ?_
      refine (ih (ferretTail_related hodd hab htailS htailR hlt hs hr _ _) ?_ ?_ ?_ ?_ ?_).mono ?_
      · rwa [length_putSubspan]
      · rwa [length_putSubspan]
      · omega
      · rwa [Nat.add_right_comm, Nat.add_assoc]
      · intro j hj
        exact hput j (by omega)
      · intro a b
        rw [length_putSubspan, length_putSubspan]
        exact id
    · rw [if_neg hmore, if_neg hmore]
      refine .ret ⟨length_putSubspan .., length_putSubspan .., fun j hj => hput j ?_⟩
      omega

end Batches

/-! ### The number of transfers -/

/-- The number of transfers of a multi-point COT over all bins, with those of the check. -/
def LpnParam.mpCotCost (lpnParam : LpnParam) (mal : Bool) : ℕ :=
  lpnParam.t * ceilLog2 (lpnParam.n / lpnParam.t) + if mal then 128 else 0

variable {lpnParam : LpnParam} {mal : Bool}

theorem mpCotRNHelper_eq (hn : lpnParam.n < 2 ^ 64) (hpos : 0 < lpnParam.n)
    (hdvd : lpnParam.t ∣ lpnParam.n) (hlt : lpnParam.mpCotCost mal < 2 ^ 64)
    (hsum : lpnParam.n + lpnParam.t ≤ 2 ^ 64) :
    mpCotRNHelper lpnParam.t lpnParam.n mal = .ok (lpnParam.mpCotCost mal) := by
  obtain ⟨n, k, t, noiseAsm⟩ := lpnParam
  obtain ⟨q, rfl⟩ : t ∣ n := hdvd
  have ht : 0 < t := Nat.pos_of_mul_pos_right hpos
  have hq : 0 < q := Nat.pos_of_mul_pos_left hpos
  rw [LpnParam.mpCotCost] at hlt ⊢
  dsimp only at hn hpos hlt hsum ⊢
  rw [Nat.mul_div_cancel_left q ht] at hlt ⊢
  have hbatch : (t * q + t - 1) % 2 ^ 64 / t = q := by
    refine Nat.div_eq_of_lt_le ?_ ?_
    · rw [Nat.mul_comm]
      omega
    · rw [Nat.succ_mul, Nat.mul_comm]
      omega
  have hsub : ∀ x, x * (t - 1) + x = t * x := fun x => by
    rw [← Nat.mul_succ, Nat.succ_eq_add_one, Nat.sub_add_cancel ht, Nat.mul_comm]
  have hlast : sub64 (t * q) (q * (t - 1) % 2 ^ 64) = q := by
    have hq' := hsub q
    rw [sub64_of_le (by omega) hn]
    omega
  rw [mpCotRNHelper, definedIf_bind ht.ne', hbatch]
  dsimp only
  rw [hlast, log2Ceil_eq hq.ne', ok_bind, ok_bind, hsub, Nat.mod_eq_of_lt hlt]
  rfl

theorem of_mpCotRNHelper {m : ℕ} (hn : lpnParam.n < 2 ^ 64) (hpos : 0 < lpnParam.n)
    (hdvd : lpnParam.t ∣ lpnParam.n) (hlt : lpnParam.mpCotCost mal < 2 ^ 64)
    (h : mpCotRNHelper lpnParam.t lpnParam.n mal = .ok m) :
    lpnParam.n + lpnParam.t ≤ 2 ^ 64 ∧ m = lpnParam.mpCotCost mal := by
  by_cases hsum : lpnParam.n + lpnParam.t ≤ 2 ^ 64
  · exact ⟨hsum, Except.ok.inj (h.symm.trans (mpCotRNHelper_eq hn hpos hdvd hlt hsum))⟩
  · have hbatch : (lpnParam.n + lpnParam.t - 1) % 2 ^ 64 / lpnParam.t = 0 := by
      exact Nat.div_eq_of_lt (by omega)
    obtain ⟨_, -, h⟩ := of_bind_eq_ok h
    rw [hbatch] at h
    contradiction

/-- **The parameters of a multi-point COT agree**: for all sizes of its range, the programs accept
their number of bins, and the transfers that they slice or read are those that `MpCotRNHelper` has
reserved. -/
def LpnParam.CotsReserved (lpnParam : LpnParam) (mal : Bool) : Prop :=
  ∀ idxRange, 1 ≤ idxRange → idxRange ≤ lpnParam.n → ∃ p m,
    MpCotParam.make idxRange lpnParam.t (lpnParam.n / lpnParam.t) = .ok p ∧
    mpCotRNHelper lpnParam.t lpnParam.n mal = .ok m ∧
    p.batchLength * (p.batchNum - 1) + p.lastLength + (if mal then 128 else 0) ≤ m ∧
    (p.lastSize = 1 → (p.batchNum - 1) * p.batchLength < m)

theorem three_mul_ceilLog2_le {q : ℕ} (hq : 1 < q) : 3 * ceilLog2 q ≤ 2 * q := by
  obtain ⟨l, hl, hlow, -⟩ := ceilLog2_spec hq
  have hpow : 3 * (l + 1) ≤ 2 * (2 ^ l + 1) := by
    clear hl hlow
    induction l with
    | zero => decide
    | succ l ih =>
      rcases l with - | l
      · decide
      · omega
  omega

theorem MpCotParam.make_eq_ok (hrange : 1 ≤ idxRange) (hspcot : 1 ≤ spcotSize)
    (hnum : (idxRange - 1) / spcotSize < idxNum) : ∃ p, make idxRange idxNum spcotSize = .ok p := by
  have hdiv : divCeil idxRange spcotSize = 1 + (idxRange - 1) / spcotSize := if_neg (by omega)
  have hmul := Nat.div_mul_le_self (idxRange - 1) spcotSize
  rw [make, definedIf_bind (.inr (by omega)), hdiv]
  rw [enforce_bind (by omega), enforce_bind (Nat.le_add_right 1 _), log2Ceil_eq (by omega), ok_bind,
    Nat.add_sub_cancel_left, log2Ceil_eq (by omega)]
  exact ⟨_, rfl⟩

/-- **The parameters of a multi-point COT agree** if and only if the bins fill the range, and the
division of `MpCotRNHelper` does not wrap around. -/
theorem cotsReserved_iff {lpnParam : LpnParam} {mal : Bool} (ht : 1 ≤ lpnParam.t)
    (hn : 2 * lpnParam.t ≤ lpnParam.n) (h64 : lpnParam.n < 2 ^ 64) :
    lpnParam.CotsReserved mal ↔
      lpnParam.t ∣ lpnParam.n ∧ lpnParam.n + lpnParam.t ≤ 2 ^ 64 := by
  have hsize : 2 ≤ lpnParam.n / lpnParam.t := (Nat.le_div_iff_mul_le (by omega)).mpr hn
  have hcost : lpnParam.t ∣ lpnParam.n → lpnParam.mpCotCost mal < 2 ^ 64 := by
    intro hdvd
    have hmul := Nat.mul_le_mul_left lpnParam.t
      (three_mul_ceilLog2_le (show 1 < lpnParam.n / lpnParam.t by omega))
    have heq := Nat.mul_div_cancel' hdvd
    rw [LpnParam.mpCotCost]
    rw [Nat.mul_left_comm, Nat.mul_left_comm _ 2] at hmul
    split <;> omega
  constructor
  · intro h
    obtain ⟨p, m, hmake, hhelper, -⟩ := h lpnParam.n (by omega) le_rfl
    have hfits := MpCotParam.of_make hmake
    have hdvd : lpnParam.t ∣ lpnParam.n := by
      -- otherwise the last entries need one more bin
      by_contra hndvd
      have hnum := hfits.batchNum_le
      rw [hfits.batchNum_eq] at hnum
      have hlt : lpnParam.t * (lpnParam.n / lpnParam.t) < lpnParam.n :=
        lt_of_le_of_ne (Nat.mul_div_le _ _) fun heq => hndvd ⟨_, heq.symm⟩
      have hle := (Nat.le_div_iff_mul_le (by omega)).mpr
        (show lpnParam.t * (lpnParam.n / lpnParam.t) ≤ lpnParam.n - 1 by omega)
      omega
    exact ⟨hdvd, (of_mpCotRNHelper h64 (by omega) hdvd (hcost hdvd) hhelper).1⟩
  · rintro ⟨hdvd, hsum⟩ idxRange hrange hle
    have heq := Nat.mul_div_cancel' hdvd
    obtain ⟨p, hp⟩ := MpCotParam.make_eq_ok hrange
      (by omega)
      ((Nat.div_lt_iff_lt_mul (by omega)).mpr
        (show idxRange - 1 < lpnParam.t * (lpnParam.n / lpnParam.t) by omega))
    refine ⟨p, _, hp, mpCotRNHelper_eq h64 (by omega) hdvd (hcost hdvd) hsum, ?_⟩
    have hfits := MpCotParam.of_make hp
    have hnum := hfits.batchNum_le
    have hone : 1 ≤ p.batchNum := by
      rw [hfits.batchNum_eq]
      exact Nat.le_add_right _ _
    have hlength : p.batchLength = ceilLog2 (lpnParam.n / lpnParam.t) := hfits.batchLength_eq
    have hmul := Nat.mul_le_mul_left p.batchLength hnum
    have hlast : p.lastLength ≤ p.batchLength := by
      rw [hfits.lastLength_eq, hlength]
      rcases Nat.lt_or_ge 1 p.lastSize with hlt | hge
      · refine ceilLog2_mono hlt ?_
        rw [hfits.lastSize_eq]
        have hmod := Nat.mod_lt (idxRange - 1) (show 0 < lpnParam.n / lpnParam.t by omega)
        omega
      · obtain hsize : p.lastSize = 1 := by
          have hlast := hfits.lastSize_eq
          omega
        rw [hsize]
        exact Nat.zero_le _
    have hpos : 1 ≤ p.batchLength := by
      obtain ⟨l, hl, -⟩ := ceilLog2_spec (show 1 < lpnParam.n / lpnParam.t by omega)
      omega
    have hsplit :
        p.batchLength * (p.batchNum - 1) + p.batchLength = p.batchLength * p.batchNum := by
      rw [← Nat.mul_succ, Nat.succ_eq_add_one, Nat.sub_add_cancel hone]
    rw [LpnParam.mpCotCost, ← hlength, Nat.mul_comm lpnParam.t]
    refine ⟨by omega, fun _ => ?_⟩
    rw [Nat.mul_comm]
    split <;> omega

/-- The default parameter set. -/
theorem cotsReserved_default : LpnParam.getDefault.CotsReserved true :=
  (cotsReserved_iff (by decide) (by decide) (by decide)).mpr ⟨by decide, by decide⟩

/-- Eight entries in three bins of two. -/
theorem not_cotsReserved_eight : ¬(⟨8, 10, 3, .regularNoise⟩ : LpnParam).CotsReserved false := by
  intro h
  obtain ⟨p, m, hmake, -⟩ := h 8 (by decide) (by decide)
  exact absurd (MpCotParam.of_make hmake).batchNum_le (by
    rw [(MpCotParam.of_make hmake).batchNum_eq]
    decide)

/-- The parameter sets for which a call can return. -/
structure LpnParam.Usable (lpnParam : LpnParam) (mal : Bool) : Prop where
  regular : lpnParam.noiseAsm = .regularNoise
  sum_le : lpnParam.n + lpnParam.t ≤ 2 ^ 64
  k_pos : 0 < lpnParam.k
  k_lt : lpnParam.k < 2 ^ 32
  cost_pos : 0 < lpnParam.mpCotCost mal

/-! ### The programs -/

/-- **Base transfers**: correct compact transfers with an odd `delta`, in stores that are not
sliced. -/
structure BaseCots (s : OtSendStore) (r : OtRecvStore) : Prop where
  send_type : s.type = .compact
  recv_type : r.type = .compact
  odd : s.delta.getLsbD 0 = true
  baseOts : BaseOts r s
  send_useCtr : s.useCtr = 0
  recv_useCtr : r.useCtr = 0
  send_useSize : s.useSize = s.blkBuf.length
  recv_useSize : r.useSize = r.blkBuf.length
  lt : r.useSize < 2 ^ 64

theorem BaseCots.compactCots (h : BaseCots s r) : CompactCots s r := by
  have hdelta : s.delta ≠ 0 := ne_zero_of_odd h.odd
  have huse : s.useSize = r.useSize := by
    rw [OtSendStore.useSize_eq_size h.send_type, h.baseOts.size_eq]
    rfl
  have hlen : s.blkBuf.length = r.blkBuf.length := by
    rw [← h.send_useSize, huse, h.recv_useSize]
  refine ⟨h.send_type, h.recv_type, h.odd, h.send_useCtr.trans h.recv_useCtr.symm, huse, ?_,
    h.recv_useSize ▸ h.lt⟩
  refine forall₂_cot_iff.2 ⟨hlen, fun i hi => ?_⟩
  have hlt := h.lt
  have hsize := h.recv_useSize
  obtain ⟨x, hx, hblock⟩ := h.baseOts.correlated hdelta (show i < r.useSize by omega)
  have hget := OtSendStore.getBlock_of_compact h.send_type hdelta (show i < s.useSize by omega)
    (by omega) false
  rw [h.send_useCtr] at hget
  obtain rfl : x = s.blkBuf.getD i 0 := by simpa using (hx false).symm.trans hget
  rw [OtRecvStore.choice_eq_ite, if_pos h.recv_type] at hblock
  rw [OtRecvStore.block, h.recv_useCtr, Nat.zero_add] at hblock
  refine ⟨?_, hblock⟩
  have hlsb := congrArg (fun z : Uint128 => z.getLsbD 0) hblock
  rw [BitVec.getLsbD_xor] at hlsb
  generalize (r.blkBuf.getD i 0).getLsbD 0 = c at hlsb
  cases c with
  | false => simpa using hlsb
  | true =>
    rw [if_pos rfl, h.odd] at hlsb
    simpa using hlsb

/-- The output of Ferret: `recv[i] = send[i] ^ lsb(recv[i]) * delta` and `lsb(send[i]) = 0`. -/
structure FerretCots (otNum : ℕ) (delta : Uint128) (s : OtSendStore) (r : OtRecvStore) : Prop where
  delta_eq : s.delta = delta
  block : ∀ i < otNum, ∃ x y, s.getBlock i 0 = .ok x ∧ r.getBlock i = .ok y ∧ Cot delta x y

variable {otNum : ℕ} {sizes : FerretSizes}

theorem of_ferretSizes (hn : lpnParam.n < 2 ^ 64) (hdvd : lpnParam.t ∣ lpnParam.n)
    (hlt : lpnParam.k + lpnParam.mpCotCost mal < lpnParam.n)
    (h : ferretSizes lpnParam otNum mal = .ok sizes) :
    lpnParam.n + lpnParam.t ≤ 2 ^ 64 ∧ sizes.mpcotCotNum = lpnParam.mpCotCost mal ∧
      sizes.batchSize = lpnParam.n - (lpnParam.k + lpnParam.mpCotCost mal) ∧
      sizes.batchNum = (otNum + sizes.batchSize - 1) % 2 ^ 64 / sizes.batchSize := by
  obtain ⟨m, hm, h⟩ := of_bind_eq_ok h
  obtain ⟨hsum, rfl⟩ := of_mpCotRNHelper hn (by omega) hdvd (by omega) hm
  obtain ⟨_, -, h⟩ := of_bind_eq_ok h
  rw [← Except.ok.inj h]
  refine ⟨hsum, rfl, ?_, rfl⟩
  rw [Nat.mod_eq_of_lt (by omega), sub64_of_le hlt.le hn]

theorem ferretSlices_related (h : CompactCots s r) (hlt : sizes.mpcotCotNum + lpnParam.k < 2 ^ 64)
    {cotsS : OtSendStore × OtSendStore} {cotsR : OtRecvStore × OtRecvStore}
    (hS : ferretSlices s.slice lpnParam sizes = .ok cotsS)
    (hR : ferretSlices r.slice lpnParam sizes = .ok cotsR) {working : List Uint128}
    (hworking : cotsS.2.copyCotBlkBuf = .ok working) :
    0 < sizes.mpcotCotNum ∧ 0 < lpnParam.k ∧ ∀ outS outR, RelatedSeeds s.delta
      ⟨outS, working, cotsS.1⟩ ⟨outR, cotsR.2.copyBlkBuf, cotsR.1⟩ := by
  obtain ⟨mpcotS, hmpcotS, hS⟩ := of_bind_eq_ok hS
  obtain ⟨seedS, hseedS, hS⟩ := of_bind_eq_ok hS
  obtain ⟨mpcotR, hmpcotR, hR⟩ := of_bind_eq_ok hR
  obtain ⟨seedR, hseedR, hR⟩ := of_bind_eq_ok hR
  obtain rfl := Except.ok.inj hS
  obtain rfl := Except.ok.inj hR
  rw [Nat.mod_eq_of_lt hlt] at hseedS hseedR
  rw [← Nat.zero_add sizes.mpcotCotNum] at hmpcotS hmpcotR
  obtain ⟨hmpcot, hmpcotDelta, hmpcotSize⟩ := h.slice hmpcotS hmpcotR
  obtain ⟨hseed, hseedDelta, hseedSize⟩ := h.slice hseedS hseedR
  refine ⟨hmpcotSize ▸ mpcotR.useSize_pos, hseedSize ▸ seedR.useSize_pos, fun outS outR =>
    ⟨hmpcot, hmpcotDelta, ?_⟩⟩
  obtain ⟨-, hworking⟩ := of_enforce_bind hworking
  obtain ⟨_, -, hworking⟩ := of_bind_eq_ok hworking
  obtain ⟨⟨huse, -, hctr, -⟩, -⟩ := OtSendStore.of_init hseedS
  rw [← Except.ok.inj hworking, OtRecvStore.copyBlkBuf, ← hseed.useCtr_eq, ← hseed.useSize_eq,
    hctr, ← huse, ← hseedDelta]
  exact List.forall₂_take _ (List.forall₂_drop _ hseed.cots)

theorem ferretExpand_session (llc : LocalLinearCode) (mal : Bool) (rnd : FerretRandom)
    (hodd : delta.getLsbD 0 = true) (hlt : sizes.mpcotCotNum < 2 ^ 64)
    (hle : sizes.batchSize ≤ lpnParam.n) (hnum : otNum ≤ sizes.batchNum * sizes.batchSize)
    {stS : FerretState OtSendStore} {stR : FerretState OtRecvStore} (h : RelatedSeeds delta stS stR)
    (hS : otNum ≤ stS.out.length) (hR : otNum ≤ stR.out.length) :
    Session True (ferretExpandSend T lpnParam otNum mal rnd sizes llc delta stS)
      (ferretExpandRecv T lpnParam otNum mal sizes llc stR) fun a b =>
        a.length = stS.out.length ∧ b.length = stR.out.length ∧ CotsBelow delta otNum a b := by
  refine ferretLoop_session T mal rnd hodd hlt hle h hS hR ?_ ?_ fun i hi => ?_
  · rw [Nat.zero_mul]
    exact Nat.zero_le _
  · rwa [Nat.zero_add]
  · rw [Nat.zero_mul] at hi
    contradiction

theorem FerretCots.of_buffers (hlt : otNum < 2 ^ 64) (hodd : delta.getLsbD 0 = true)
    (htype : s.type = .compact) (hdelta : s.delta = delta) (hsctr : s.useCtr = 0)
    (hrctr : r.useCtr = 0) (hsuse : s.useSize = otNum) (hruse : otNum ≤ r.useSize)
    (hcots : CotsBelow delta otNum s.blkBuf r.blkBuf) : FerretCots otNum delta s r := by
  refine ⟨hdelta, fun i hi => ?_⟩
  have hne : s.delta ≠ 0 := hdelta ▸ ne_zero_of_odd hodd
  have hget := OtSendStore.getBlock_of_compact htype hne (hsuse ▸ hi) (hsuse ▸ hlt.le) false
  rw [hsctr] at hget
  refine ⟨_, r.block i, hget, OtRecvStore.getBlock_eq (hi.trans_le hruse), ?_⟩
  rw [OtRecvStore.block, hrctr]
  simpa using hcots i hi

theorem of_ferretBootstrapSend {boot : FerretSizes × Uint128 × OtSendStore × OtSendStore}
    (h : ferretBootstrapSend lpnParam otNum mal s = .ok boot) :
    ferretCheck s.type s.size lpnParam otNum = .ok () ∧
      ferretSizes lpnParam otNum mal = .ok boot.1 ∧ s.getDelta = .ok boot.2.1 ∧
      ferretSlices s.slice lpnParam boot.1 = .ok boot.2.2 := by
  obtain ⟨_, hcheck, h⟩ := of_bind_eq_ok h
  obtain ⟨sizes, hsizes, h⟩ := of_bind_eq_ok h
  obtain ⟨delta, hdelta, h⟩ := of_bind_eq_ok h
  obtain ⟨cots, hcots, h⟩ := of_bind_eq_ok h
  rw [← Except.ok.inj h]
  exact ⟨hcheck, hsizes, hdelta, hcots⟩

theorem of_ferretBootstrapRecv {boot : FerretSizes × OtRecvStore × OtRecvStore}
    (h : ferretBootstrapRecv lpnParam otNum mal r = .ok boot) :
    ferretSizes lpnParam otNum mal = .ok boot.1 ∧
      ferretSlices r.slice lpnParam boot.1 = .ok boot.2 := by
  obtain ⟨_, -, h⟩ := of_bind_eq_ok h
  obtain ⟨sizes, hsizes, h⟩ := of_bind_eq_ok h
  obtain ⟨cots, hcots, h⟩ := of_bind_eq_ok h
  rw [← Except.ok.inj h]
  exact ⟨hsizes, hcots⟩

theorem OtSendStore.of_getDelta (h : s.getDelta = .ok delta) : delta = s.delta :=
  (Except.ok.inj (of_enforce_bind h).2).symm

theorem regular_of_ferretCheck {size : ℕ} {type : OtStoreType} {u : Unit}
    (h : ferretCheck type size lpnParam otNum = .ok u) : lpnParam.noiseAsm = .regularNoise := by
  obtain ⟨-, h⟩ := of_enforce_bind h
  obtain ⟨-, h⟩ := of_enforce_bind h
  obtain ⟨_, hhelper, -⟩ := of_bind_eq_ok h
  rw [ferretCotHelper] at hhelper
  split at hhelper
  · next hasm => exact hasm
  · contradiction

section NoWrap

variable {lpnParam : LpnParam} {otNum : ℕ} {mal : Bool} (hn : lpnParam.n < 2 ^ 64)
  (hdvd : lpnParam.t ∣ lpnParam.n) (hlt : lpnParam.k + lpnParam.mpCotCost mal < lpnParam.n)
  (hwrap : lpnParam.Usable mal →
    otNum + (lpnParam.n - (lpnParam.k + lpnParam.mpCotCost mal)) ≤ 2 ^ 64)
  (h : BaseCots s r)

include hn hdvd hlt hwrap

/-- The number of batches is enough for a call that gets as far as the loop. -/
theorem ferretSizes_fit {sizes : FerretSizes}
    (hsizes : ferretSizes lpnParam otNum mal = .ok sizes)
    (hregular : lpnParam.noiseAsm = .regularNoise) (hm : 0 < sizes.mpcotCotNum)
    (hk : 0 < lpnParam.k) (hk32 : lpnParam.k < 2 ^ 32) :
    otNum < 2 ^ 64 ∧ sizes.batchSize ≤ lpnParam.n ∧
      otNum ≤ sizes.batchNum * sizes.batchSize := by
  obtain ⟨hsum, hcost, hbatch, hnum⟩ := of_ferretSizes hn hdvd hlt hsizes
  have hle := hwrap ⟨hregular, hsum, hk, hk32, hcost ▸ hm⟩
  refine ⟨by omega, by omega, ?_⟩
  have hpos : 0 < sizes.batchSize := by omega
  have hdiv := Nat.div_add_mod' (otNum + sizes.batchSize - 1) sizes.batchSize
  have hmod := Nat.mod_lt (otNum + sizes.batchSize - 1) hpos
  rw [hnum, Nat.mod_eq_of_lt (by omega)]
  omega

include h

/-- **The overload that returns a store.** -/
theorem ferretOtExt_session (rnd : FerretRandom) (memoryS memoryR : ℕ → Uint128) :
    Session True (ferretOtExtSend T lpnParam otNum mal rnd memoryS s)
      (ferretOtExtRecv T lpnParam otNum mal memoryR r) (FerretCots otNum s.delta) := by
  refine .bind_except_left trivial ?_
  rintro ⟨sizes, delta, cotsS⟩ hbootS
  refine .bind_except_right trivial ?_
  rintro ⟨sizes', cotsR⟩ hbootR
  obtain ⟨hcheck, hsizes, hdelta, hslicesS⟩ := of_ferretBootstrapSend hbootS
  obtain ⟨hsizes', hslicesR⟩ := of_ferretBootstrapRecv hbootR
  obtain rfl : sizes' = sizes := Except.ok.inj (hsizes'.symm.trans hsizes)
  obtain rfl : delta = s.delta := OtSendStore.of_getDelta hdelta
  have hcost := (of_ferretSizes hn hdvd hlt hsizes).2.1
  refine .bind_except_left trivial fun working hworking => ?_
  obtain ⟨hm, hk, hseeds⟩ :=
    ferretSlices_related h.compactCots (by omega) hslicesS hslicesR hworking
  refine (syncSeed_session T rnd.seed).of_false.bind ?_
  rintro _ _ ⟨rfl, rfl⟩
  refine .bind_except_left trivial fun llc hllc => ?_
  rw [bind_of_ok hllc]
  obtain ⟨h64, hle, hnum⟩ := ferretSizes_fit hn hdvd hlt hwrap hsizes
    (regular_of_ferretCheck hcheck) hm hk (LocalLinearCode.of_make hllc)
  refine (ferretExpand_session T llc mal rnd h.odd (by omega) hle hnum (hseeds _ _) (by simp)
    (by simp)).bind ?_
  rintro a b ⟨ha, hb, hab⟩
  refine .except_both trivial fun s' r' hs' hr' => ?_
  rw [List.length_map, List.length_range] at ha hb
  obtain ⟨⟨hsctr, hsuse, -⟩, hstype, hsdelta, hsbuf⟩ := OtSendStore.of_init hs'
  obtain ⟨⟨hrctr, hruse, -⟩, -, -, hrbuf⟩ := OtRecvStore.of_init hr'
  refine .of_buffers h64 h.odd hstype hsdelta hsctr hrctr (hsuse.trans ha) (by omega) ?_
  rwa [hsbuf, hrbuf]

/-- **The overload that writes into a store.** -/
theorem ferretOtExtInto_session (rnd : FerretRandom) {outS : OtSendStore} {outR : OtRecvStore}
    (hS : outS.useCtr = 0) (hR : outR.useCtr = 0) :
    Session True (ferretOtExtSendInto T lpnParam otNum mal rnd s outS)
      (ferretOtExtRecvInto T lpnParam otNum mal r outR) (FerretCots otNum s.delta) := by
  refine .bind_except_left trivial fun _ hcheck => ?_
  refine .bind_except_left trivial fun _ htypeS => ?_
  refine .bind_except_left trivial fun _ hsizeS => ?_
  refine .bind_except_left trivial fun sizes hsizes => ?_
  refine .bind_except_left trivial fun delta hdelta => ?_
  refine .bind_except_left trivial fun out hout => ?_
  refine .bind_except_left trivial fun cotsS hslicesS => ?_
  refine .bind_except_left trivial fun working hworking => ?_
  refine .bind_except_right trivial fun _ _ => ?_
  refine .bind_except_right trivial fun _ htypeR => ?_
  refine .bind_except_right trivial fun _ hsizeR => ?_
  rw [bind_of_ok hsizes]
  refine .bind_except_right trivial fun cotsR hslicesR => ?_
  obtain rfl : delta = s.delta := OtSendStore.of_getDelta hdelta
  obtain rfl := Except.ok.inj (of_enforce_bind hout).2
  have hcost := (of_ferretSizes hn hdvd hlt hsizes).2.1
  obtain ⟨hm, hk, hseeds⟩ :=
    ferretSlices_related h.compactCots (by omega) hslicesS hslicesR hworking
  refine (syncSeed_session T rnd.seed).of_false.bind ?_
  rintro _ _ ⟨rfl, rfl⟩
  refine .bind_except_left trivial fun llc hllc => ?_
  rw [bind_of_ok hllc]
  obtain ⟨h64, hle, hnum⟩ := ferretSizes_fit hn hdvd hlt hwrap hsizes
    (regular_of_ferretCheck hcheck) hm hk (LocalLinearCode.of_make hllc)
  refine .bind_except_left trivial fun spanS hspanS => ?_
  refine .bind_except_right trivial fun spanR hspanR => ?_
  obtain rfl := Except.ok.inj (of_enforce_bind hspanS).2
  obtain rfl := Except.ok.inj (of_enforce_bind hspanR).2
  have huseS : outS.useSize = otNum :=
    (OtSendStore.useSize_eq_size (of_enforce htypeS)).trans (of_enforce hsizeS)
  have huseR : outR.useSize = otNum := of_enforce hsizeR
  have hleS := outS.use_le
  have hleR := outR.use_le
  have hbufS := outS.bufSize_le
  have hbufR := outR.bufSize_le
  refine (ferretExpand_session T llc mal rnd h.odd (by omega) hle hnum (hseeds _ _)
    (by rw [List.length_take]; dsimp only; omega) (by rw [List.length_take]; omega)).bind ?_
  rintro a b ⟨ha, hb, hab⟩
  rw [List.length_take] at ha hb
  dsimp only at ha
  refine .ret (.of_buffers h64 h.odd (of_enforce htypeS) rfl hS hR huseS huseR.ge ?_)
  intro i hi
  rw [OtSendStore.withBlkBufSpan, OtRecvStore.withBlkBufSpan]
  dsimp only
  rw [getD_putSubspan (by omega), getD_putSubspan (by omega), if_pos (by omega), if_pos (by omega)]
  exact hab i hi

end NoWrap

/-! ### Output that no batch has written -/

section Wrap

variable {lpnParam : LpnParam} {otNum : ℕ} {mal : Bool} (husable : lpnParam.Usable mal)
  (hn : lpnParam.n < 2 ^ 64) (hdvd : lpnParam.t ∣ lpnParam.n)
  (hlt : lpnParam.k + lpnParam.mpCotCost mal < lpnParam.n)

include husable hn hdvd hlt

theorem ferretCheck_eq_ok {size : ℕ} (hsize : lpnParam.k + lpnParam.mpCotCost mal ≤ size)
    (hnum : 2 * lpnParam.t ≤ otNum) : ferretCheck .compact size lpnParam otNum = .ok () := by
  have hfalse : lpnParam.mpCotCost false ≤ lpnParam.mpCotCost mal := by
    exact Nat.add_le_add_left (Nat.zero_le _) _
  have hhelper : ferretCotHelper lpnParam false =
      .ok (lpnParam.k + lpnParam.mpCotCost false) := by
    rw [ferretCotHelper, husable.regular]
    dsimp only
    rw [mpCotRNHelper_eq hn (by omega) hdvd (by omega) husable.sum_le, ok_bind,
      if_neg Bool.false_ne_true, Nat.mod_eq_of_lt (by omega)]
    rfl
  rw [ferretCheck, enforce_bind (show worldSize = 2 from rfl), enforce_bind rfl, hhelper, ok_bind,
    enforce_bind (by omega)]
  exact enforce_of_pos ((Nat.mod_le _ _).trans hnum) _ _

theorem ferretSizes_of_wrap (h64 : otNum < 2 ^ 64)
    (hwrap : 2 ^ 64 < otNum + (lpnParam.n - (lpnParam.k + lpnParam.mpCotCost mal))) :
    ferretSizes lpnParam otNum mal = .ok ⟨lpnParam.mpCotCost mal,
      lpnParam.n - (lpnParam.k + lpnParam.mpCotCost mal), 0⟩ := by
  rw [ferretSizes, mpCotRNHelper_eq hn (by omega) hdvd (by omega) husable.sum_le, ok_bind]
  dsimp only
  rw [Nat.mod_eq_of_lt (by omega),
    sub64_of_le hlt.le hn, definedIf_bind (by omega)]
  -- the sum is above `2 ^ 64` by less than the size of a batch
  rw [Nat.mod_eq_sub_mod (by omega), Nat.div_eq_of_lt (by omega)]
  rfl

/-- **No batch runs** if the number of batches wraps around: both parties return, and the blocks of
the sender are what was in the memory. -/
theorem ferretOtExt_session_of_wrap (hnum : 2 * lpnParam.t ≤ otNum) (h64 : otNum < 2 ^ 64)
    (hwrap : 2 ^ 64 < otNum + (lpnParam.n - (lpnParam.k + lpnParam.mpCotCost mal)))
    (h : BaseCots s r) (hsize : lpnParam.k + lpnParam.mpCotCost mal ≤ r.size) (rnd : FerretRandom)
    (memoryS memoryR : ℕ → Uint128) :
    Session False (ferretOtExtSend T lpnParam otNum mal rnd memoryS s)
      (ferretOtExtRecv T lpnParam otNum mal memoryR r) fun a _ =>
        ∀ i < otNum, a.getBlock i 0 = .ok (memoryS i) := by
  have hcots := h.compactCots
  have hdelta := hcots.delta_ne_zero
  have hssize : lpnParam.k + lpnParam.mpCotCost mal ≤ s.size := h.baseOts.size_eq.symm ▸ hsize
  have hm := husable.cost_pos
  have hk := husable.k_pos
  have huse : s.useSize < 2 ^ 64 := hcots.useSize_eq ▸ h.lt
  have hlen : lpnParam.mpCotCost mal + lpnParam.k ≤ r.blkBuf.length := by
    rw [← h.recv_useSize, Nat.add_comm]
    exact hsize
  obtain ⟨mpcotS, hmpcotS, -⟩ := OtSendStore.slice_eq hdelta hm (by omega) huse
  obtain ⟨seedS, hseedS, -⟩ := OtSendStore.slice_eq hdelta
    (show lpnParam.mpCotCost mal < lpnParam.mpCotCost mal + lpnParam.k by omega) (by omega) huse
  obtain ⟨mpcotR, hmpcotR, -⟩ := OtRecvStore.slice_eq (r := r) hm (by omega) (by omega)
  obtain ⟨seedR, hseedR, -⟩ := OtRecvStore.slice_eq
    (show lpnParam.mpCotCost mal < lpnParam.mpCotCost mal + lpnParam.k by omega) hlen (by omega)
  obtain ⟨working, hworking, -⟩ :=
    OtSendStore.exists_copyCotBlkBuf h.send_type (by omega) hseedS
  have hsizes := ferretSizes_of_wrap husable hn hdvd hlt h64 hwrap
  have hbootS : ferretBootstrapSend lpnParam otNum mal s = .ok (⟨lpnParam.mpCotCost mal,
      lpnParam.n - (lpnParam.k + lpnParam.mpCotCost mal), 0⟩, s.delta, mpcotS, seedS) := by
    rw [ferretBootstrapSend, h.send_type, ferretCheck_eq_ok husable hn hdvd hlt hssize hnum, hsizes,
      ok_bind, OtSendStore.getDelta_eq hdelta, ok_bind, ferretSlices]
    dsimp only
    rw [hmpcotS, Nat.mod_eq_of_lt (by omega), hseedS]
    rfl
  have hbootR : ferretBootstrapRecv lpnParam otNum mal r = .ok (⟨lpnParam.mpCotCost mal,
      lpnParam.n - (lpnParam.k + lpnParam.mpCotCost mal), 0⟩, mpcotR, seedR) := by
    rw [ferretBootstrapRecv, h.recv_type, ferretCheck_eq_ok husable hn hdvd hlt hsize hnum, ok_bind,
      hsizes, ok_bind, ferretSlices]
    dsimp only
    rw [hmpcotR, Nat.mod_eq_of_lt (by omega), hseedR]
    rfl
  obtain ⟨llc, hllc⟩ := LocalLinearCode.exists_make rnd.seed hk husable.k_lt
  have hlenS : ((List.range otNum).map memoryS).length = otNum := by
    rw [List.length_map, List.length_range]
  have hlenR : ((List.range otNum).map memoryR).length = otNum := by
    rw [List.length_map, List.length_range]
  obtain ⟨s', hs', -, -, -, hblock⟩ := makeCompactOtSendStore_eq
    (show 0 < ((List.range otNum).map memoryS).length by omega) (by omega) hdelta
  obtain ⟨r', hr', -⟩ := makeCompactOtRecvStore_eq
    (show 0 < ((List.range otNum).map memoryR).length by omega)
  rw [ferretOtExtSend, ferretOtExtRecv, bind_of_ok hbootS, bind_of_ok hbootR]
  dsimp only
  rw [bind_of_ok hworking]
  refine (syncSeed_session T rnd.seed).bind ?_
  rintro _ _ ⟨rfl, rfl⟩
  rw [bind_of_ok hllc, bind_of_ok hllc, ferretExpandSend, ferretExpandRecv]
  show Session False (liftM (makeCompactOtSendStore ((List.range otNum).map memoryS) s.delta))
    (liftM (makeCompactOtRecvStore ((List.range otNum).map memoryR))) _
  rw [hs', hr']
  refine .ret fun i hi => ?_
  have hget := hblock i (memoryS i) (by rw [List.getElem?_map, List.getElem?_range hi]; rfl) false
  simpa using hget

end Wrap

end Sessions

/-! ### Ferret COT -/

/-- **Ferret is correct** for a parameter set and a number of transfers: whenever both parties
return, their outputs are correlated. This is for both overloads, over all tools, random numbers,
base transfers and contents of the memory. -/
def FerretCorrect (lpnParam : LpnParam) (otNum : ℕ) (mal : Bool) : Prop :=
  ∀ (T : Tools) (rnd : FerretRandom) (s : OtSendStore) (r : OtRecvStore), BaseCots s r →
    (∀ memoryS memoryR, PartiallyCorrect (ferretOtExtSend T lpnParam otNum mal rnd memoryS s)
      (ferretOtExtRecv T lpnParam otNum mal memoryR r) (FerretCots otNum s.delta)) ∧
    ∀ outS outR, outS.useCtr = 0 → outR.useCtr = 0 →
      PartiallyCorrect (ferretOtExtSendInto T lpnParam otNum mal rnd s outS)
        (ferretOtExtRecvInto T lpnParam otNum mal r outR) (FerretCots otNum s.delta)

theorem exists_baseCots {num : ℕ} (hpos : 0 < num) (hlt : num < 2 ^ 64) :
    ∃ s r, BaseCots s r ∧ r.size = num := by
  have hlen : (List.replicate num (0 : Uint128)).length = num := List.length_replicate
  obtain ⟨s, r, hmock, hbase, hsize, -, -, hdelta⟩ :=
    mockCompactOts_baseOts (List.replicate num 0) 0 (by omega) (by omega)
  obtain ⟨hstype, hrtype⟩ := mockCompactOts_type hmock
  obtain ⟨s', hs, hmock⟩ := of_bind_eq_ok hmock
  obtain ⟨r', hr, hmock⟩ := of_bind_eq_ok hmock
  obtain ⟨rfl, rfl⟩ := Prod.mk.inj (Except.ok.inj hmock)
  obtain ⟨⟨hsctr, hsuse, -⟩, -, -, hsbuf⟩ := OtSendStore.of_init hs
  obtain ⟨⟨hrctr, hruse, -⟩, -, -, hrbuf⟩ := OtRecvStore.of_init hr
  refine ⟨s', r', ⟨hstype, hrtype, ?_, hbase, hsctr, hrctr, ?_, ?_, ?_⟩, hsize.trans hlen⟩
  · rw [hdelta]
    rfl
  · rw [hsuse, hsbuf]
  · rw [hruse, hrbuf]
  · rw [hruse, hlen]
    exact hlt

theorem not_ferretCorrect_of_wrap {lpnParam : LpnParam} {otNum : ℕ} {mal : Bool}
    (husable : lpnParam.Usable mal) (hn : lpnParam.n < 2 ^ 64) (hdvd : lpnParam.t ∣ lpnParam.n)
    (hlt : lpnParam.k + lpnParam.mpCotCost mal < lpnParam.n) (hnum : 2 * lpnParam.t ≤ otNum)
    (h64 : otNum < 2 ^ 64)
    (hwrap : 2 ^ 64 < otNum + (lpnParam.n - (lpnParam.k + lpnParam.mpCotCost mal))) :
    ¬FerretCorrect lpnParam otNum mal := by
  intro hcorrect
  have hk := husable.k_pos
  obtain ⟨s, r, hbase, hsize⟩ :=
    exists_baseCots (show 0 < lpnParam.k + lpnParam.mpCotCost mal by omega) (by omega)
  -- the memory of the sender holds odd blocks
  have hsession := ferretOtExt_session_of_wrap default husable hn hdvd hlt hnum h64 hwrap hbase
    hsize.ge default (fun _ => 1) fun _ => 0
  obtain ⟨a, b, hcots, hmemory⟩ :=
    ((hcorrect default default s r hbase).1 _ _).exists_of_session hsession
  obtain ⟨x, y, hx, -, hcot⟩ := hcots.block 0 (by omega)
  obtain rfl : x = 1 := Except.ok.inj (hx.symm.trans (hmemory 0 (by omega)))
  exact absurd hcot.1 (by decide)

/-- **Ferret COT.** For every parameter set with `t ∣ n` and `k` plus the cost of a multi-point COT
below `n`, and every `ot_num ≥ 2 * t`: whenever both parties return, the outputs are correlated, if
and only if the number of batches does not wrap around, or no call can return anyway. -/
theorem ferretOtExt_correct_iff {lpnParam : LpnParam} {otNum : ℕ} {mal : Bool}
    (hn : lpnParam.n < 2 ^ 64) (hdvd : lpnParam.t ∣ lpnParam.n)
    (hlt : lpnParam.k + lpnParam.mpCotCost mal < lpnParam.n) (hnum : 2 * lpnParam.t ≤ otNum)
    (h64 : otNum < 2 ^ 64) :
    FerretCorrect lpnParam otNum mal ↔ (lpnParam.Usable mal →
      otNum + (lpnParam.n - (lpnParam.k + lpnParam.mpCotCost mal)) ≤ 2 ^ 64) := by
  constructor
  · intro hcorrect husable
    by_contra hwrap
    exact not_ferretCorrect_of_wrap husable hn hdvd hlt hnum h64 (by omega) hcorrect
  · intro hwrap T rnd s r hbase
    refine ⟨fun memoryS memoryR => ?_, fun outS outR hS hR => ?_⟩
    · exact (ferretOtExt_session T hn hdvd hlt hwrap hbase rnd memoryS memoryR).partiallyCorrect
    · exact (ferretOtExtInto_session T hn hdvd hlt hwrap hbase rnd hS hR).partiallyCorrect

/-- The default parameter set with the smallest number of transfers. -/
theorem ferretOtExt_correct_default : FerretCorrect .getDefault 2560 false :=
  (ferretOtExt_correct_iff (by decide) (by decide) (by decide +kernel) (by decide)
    (by decide)).2 fun _ => by decide +kernel

/-- A parameter set for which 200 transfers are too many: `200 + (n - 136)` is above `2 ^ 64`. -/
theorem ferretOtExt_wrap :
    2 ∣ 2 ^ 64 - 2 ∧
      10 + (⟨2 ^ 64 - 2, 10, 2, .regularNoise⟩ : LpnParam).mpCotCost false < 2 ^ 64 - 2 ∧
      ¬FerretCorrect ⟨2 ^ 64 - 2, 10, 2, .regularNoise⟩ 200 false := by
  have hcost : (⟨2 ^ 64 - 2, 10, 2, .regularNoise⟩ : LpnParam).mpCotCost false = 126 := by
    decide +kernel
  refine ⟨by decide, by omega, ?_⟩
  exact not_ferretCorrect_of_wrap
    ⟨rfl, by decide, by decide, by decide, by rw [hcost]; decide⟩ (by decide) (by decide)
    (by rw [hcost]; decide) (by decide) (by decide) (by rw [hcost]; decide)

end Yacl.Crypto
