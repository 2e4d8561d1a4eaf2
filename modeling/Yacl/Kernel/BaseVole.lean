import Yacl.Base.Link
import Yacl.Kernel.OtStoreUtils
import Yacl.Math.GaloisField

/-!
# Vector OLE from correlated transfers

The model of `Ot2VoleSend` and `Ot2VoleRecv` of `yacl/kernel/algorithms/base_vole.h`. A vector OLE
over a binary field has `w = u * delta + v`, where the sender has `w` and `delta` and the receiver
has `u` and `v`. The bits of `u` are the choices of correlated transfers: the blocks of a group of
transfers are taken as the coefficients of an element, and the correlation of the transfers becomes
a product with `delta`.

The programs are templates. `VoleTypes` are the types with which they are used, and `VoleGf` the
functions that the overloads of `GfMul` select for them.
-/

open Loop BinaryField Bits Yacl.Math

namespace Yacl.Crypto

/-- The functions for a type `T` of `t` bytes and a type `K` of `k` bytes. -/
structure VoleGf (t k : ℕ) where
  /-- `GfMul(K, K)`. -/
  gfMul : BitVec (8 * k) → BitVec (8 * k) → BitVec (8 * k)
  /-- `GfMul(Span<K>, Span<K>)`. -/
  gfMulSpan : List (BitVec (8 * k)) → List (BitVec (8 * k)) → Except Exception (BitVec (8 * k))
  /-- `GfMul(Span<K>, Span<T>)`. -/
  gfMulSpanT : List (BitVec (8 * k)) → List (BitVec (8 * t)) → Except Exception (BitVec (8 * k))
  /-- `kGf64Basis` or `kGf128Basis`. -/
  gfBasis : List (BitVec (8 * k))
  /-- The modulus of the field of `K`, without its leading term. -/
  modulo : BitVec (8 * k)

/-- The functions for `uint64_t` and `uint64_t`. -/
def voleGf64 : VoleGf 8 8 := ⟨gf64Mul, gf64MulSpan, gf64MulSpan, kGf64Basis, kGfMod64⟩

/-- The functions for `uint128_t` and `uint128_t`. -/
def voleGf128 : VoleGf 16 16 := ⟨gf128Mul, gf128MulSpan, gf128MulSpan, kGf128Basis, gfModulo128⟩

/-- The functions for `uint64_t` and `uint128_t`: the words are elements of the field of blocks. -/
def voleGfSubfield : VoleGf 8 16 :=
  ⟨gf128Mul, gf128MulSpan, gfMulSubfieldSpan, kGf128Basis, gfModulo128⟩

/-- The types `T` and `K` of a vector OLE. -/
inductive VoleTypes where
  /-- `uint64_t` and `uint64_t`. -/
  | f64
  /-- `uint128_t` and `uint128_t`. -/
  | f128
  /-- `uint64_t` and `uint128_t`. -/
  | subfield
  deriving DecidableEq, Repr

namespace VoleTypes

/-- `sizeof(T)`. -/
def t : VoleTypes → ℕ
  | f64 => 8
  | f128 => 16
  | subfield => 8

/-- `sizeof(K)`. -/
def k : VoleTypes → ℕ
  | f64 => 8
  | f128 => 16
  | subfield => 16

/-- The functions for the types. -/
def gf : (V : VoleTypes) → VoleGf V.t V.k
  | f64 => voleGf64
  | f128 => voleGf128
  | subfield => voleGfSubfield

end VoleTypes

section Programs

variable {t k : ℕ} (G : VoleGf t k)

/-- `basis`: a copy of the first `T_bits` entries of the basis of the field. -/
def voleBasis : List (BitVec (8 * k)) := G.gfBasis.take (8 * t)

/-- The buffer `w_buff` or `v_buff` for entry `i`, from the blocks of a store. -/
def voleBuff (t k : ℕ) (getBlock : ℕ → Except Exception Uint128) (i : ℕ) :
    Except Exception (ℕ → BitVec (8 * k)) :=
  forLoop (8 * t) (fun j buff => do
    let block ← getBlock (i * (8 * t) + j)
    pure (Function.update buff j (block.setWidth (8 * k)))) fun _ => 0

/-- One entry of `w` or `v`. -/
def voleEntry (getBlock : ℕ → Except Exception Uint128) (i : ℕ) :
    Except Exception (BitVec (8 * k)) := do
  let buff ← voleBuff t k getBlock i
  G.gfMulSpan ((List.range (8 * t)).map buff) (voleBasis G)

/-- `Ot2VoleSend`; the result is `w` after the call. -/
def ot2VoleSend (sendOt : OtSendStore) (w : List (BitVec (8 * k))) :
    Except Exception (List (BitVec (8 * k))) := do
  let size := w.length
  enforce (sendOt.size ≥ size * (8 * t)) "send_ot.Size() >= size * T_bits" ""
  fillSpan w size (voleEntry G fun idx => sendOt.getBlock idx 0)

/-- `memcpy(u.data(), choices.data(), size * sizeof(T))`. -/
def memcpyChoices (t : ℕ) (choices : DynamicBitset) (size : ℕ) :
    Except Exception (List (BitVec (8 * t))) :=
  if size * t ≤ (bitsetBytes choices).length then
    pure ((List.range size).map (Bytes.wordAt t (bitsetBytes choices)))
  else throw .undefinedBehaviour

/-- `Ot2VoleRecv`; the results are `u` and `v` after the call. -/
def ot2VoleRecv (recvOt : OtRecvStore) (u : List (BitVec (8 * t))) (v : List (BitVec (8 * k))) :
    Except Exception (List (BitVec (8 * t)) × List (BitVec (8 * k))) := do
  let size := u.length
  enforce (u.length = v.length) "u.size() == v.size()" ""
  enforce (recvOt.size ≥ size * (8 * t)) "recv_ot.Size() >= size * T_bits" ""
  let choices ← recvOt.copyBitBuf
  let u ← memcpyChoices t choices size
  let v ← fillSpan v size (voleEntry G recvOt.getBlock)
  pure (u, v)

end Programs

/-! ### The functions in the field -/

/-- **The functions compute in the field**: the inner product is the sum of the products, and the
basis is that of the powers of the residue of `X`. -/
structure VoleGf.Lawful {t k : ℕ} (G : VoleGf t k) : Prop where
  gfMulSpan_eq : ∀ n x y, ∃ z, G.gfMulSpan ((List.range n).map x) ((List.range n).map y) = .ok z ∧
    elem G.modulo z = ∑ i ∈ Finset.range n, elem G.modulo (x i) * elem G.modulo (y i)
  basis_eq : ∃ basis : ℕ → BitVec (8 * k), voleBasis G = (List.range (8 * t)).map basis ∧
    ∀ j < 8 * t, elem G.modulo (basis j) = AdjoinRoot.root (modulus G.modulo) ^ j

theorem take_map_range {α : Type} {m n : ℕ} (h : m ≤ n) (f : ℕ → α) :
    ((List.range n).map f).take m = (List.range m).map f := by
  rw [← List.map_take, List.take_range, min_eq_left h]

theorem voleGf64_lawful : voleGf64.Lawful where
  gfMulSpan_eq n x y := ⟨_, gf64MulSpan_eq n x y, elem_gf64Dot n x y⟩
  basis_eq := by
    refine ⟨fun i => (1#128 <<< i).setWidth 64,
      take_map_range (le_refl 64) fun i => (1#128 <<< i).setWidth 64, fun j hj => ?_⟩
    refine (val_congr _ fun i => ?_).trans (val_one_shiftLeft _ hj)
    grind

theorem voleGf128_lawful : voleGf128.Lawful where
  gfMulSpan_eq n x y := ⟨_, gf128MulSpan_eq n x y, elem_gf128Dot n x y⟩
  basis_eq := ⟨fun i => 1#128 <<< i, take_map_range (le_refl 128) _,
    fun _ hj => val_one_shiftLeft _ hj⟩

theorem voleGfSubfield_lawful : voleGfSubfield.Lawful where
  gfMulSpan_eq n x y := ⟨_, gf128MulSpan_eq n x y, elem_gf128Dot n x y⟩
  basis_eq := ⟨fun i => 1#128 <<< i, take_map_range (by omega) _,
    fun j hj => val_one_shiftLeft _ (by omega)⟩

theorem VoleTypes.lawful (V : VoleTypes) : V.gf.Lawful := by
  cases V
  · exact voleGf64_lawful
  · exact voleGf128_lawful
  · exact voleGfSubfield_lawful

/-! ### Correctness -/

/-- **Correlated transfers**, for any correlation: the receiver's block is the sender's first block,
plus `delta` if the receiver's choice is one. -/
structure Cots (r : OtRecvStore) (s : OtSendStore) (delta : Uint128) : Prop where
  size_eq : s.size = r.size
  block_eq : ∀ i < r.size, ∃ x, s.getBlock i 0 = .ok x ∧
    r.block i = x ^^^ if r.choice i then delta else 0

theorem BaseOts.cots {r : OtRecvStore} {s : OtSendStore} (h : BaseOts r s) (hdelta : s.delta ≠ 0) :
    Cots r s s.delta := by
  refine ⟨h.size_eq, fun i hi => ?_⟩
  obtain ⟨x, hx, hblock⟩ := h.correlated hdelta hi
  exact ⟨x, by simpa using hx false, hblock⟩

section Entries

variable {t k : ℕ} {G : VoleGf t k}

/-- **An entry** is the element whose coefficients are the blocks. -/
theorem voleEntry_eq (hG : G.Lawful) {getBlock : ℕ → Except Exception Uint128} {x : ℕ → Uint128}
    {i : ℕ} (hget : ∀ j < 8 * t, getBlock (i * (8 * t) + j) = .ok (x j)) :
    ∃ z, voleEntry G getBlock i = .ok z ∧ elem G.modulo z = ∑ j ∈ Finset.range (8 * t),
      elem G.modulo ((x j).setWidth (8 * k)) * AdjoinRoot.root (modulus G.modulo) ^ j := by
  obtain ⟨basis, hbasis, hpow⟩ := hG.basis_eq
  have hbuff : voleBuff t k getBlock i =
      .ok fun j => if j < 8 * t then (x j).setWidth (8 * k) else 0 :=
    forLoop_update (fun j _ => (x j).setWidth (8 * k)) (fun j hj buff => by rw [hget j hj]; rfl) _
  obtain ⟨z, hz, helem⟩ := hG.gfMulSpan_eq (8 * t) (fun j => if j < 8 * t then
    (x j).setWidth (8 * k) else 0) basis
  refine ⟨z, by rw [voleEntry, hbuff, ok_bind, hbasis, hz], helem.trans ?_⟩
  refine Finset.sum_congr rfl fun j hj => ?_
  rw [Finset.mem_range] at hj
  rw [if_pos hj, hpow j hj]

/-- **The correlation of an entry.** The coefficients that differ by `delta` make up the product
of `delta` with the element of the choices. -/
theorem sum_correlated {w : ℕ} (m : BitVec w) (n : ℕ) (x : ℕ → Uint128) (c : ℕ → Bool)
    (delta : Uint128) :
    (∑ j ∈ Finset.range n, elem m ((x j).setWidth (8 * k)) * AdjoinRoot.root (modulus m) ^ j) =
      elem m (bitsOf n c) * elem m (delta.setWidth (8 * k)) +
        ∑ j ∈ Finset.range n, elem m ((x j ^^^ if c j then delta else 0).setWidth (8 * k)) *
          AdjoinRoot.root (modulus m) ^ j := by
  rw [elem, val_bitsOf, Finset.sum_mul, ← Finset.sum_add_distrib]
  refine Finset.sum_congr rfl fun j _ => ?_
  rw [BitVec.setWidth_xor, elem_xor, add_mul]
  cases c j
  · simp
  · rw [if_pos rfl, if_pos rfl, add_comm, add_assoc, mul_comm (elem m (delta.setWidth (8 * k))),
      ZModModule.add_self, add_zero]

theorem group_lt {size n m i j : ℕ} (h : size * n ≤ m) (hi : i < size) (hj : j < n) :
    i * n + j < m :=
  calc i * n + j < i * n + n := Nat.add_lt_add_left hj _
    _ = (i + 1) * n := (Nat.succ_mul i n).symm
    _ ≤ size * n := Nat.mul_le_mul_right n hi
    _ ≤ m := h

theorem length_bitsetBytes (b : DynamicBitset) :
    (bitsetBytes b).length = blocksRequired b.size * 16 := by
  rw [bitsetBytes, Bytes.length_encode, b.blocks_length]

/-- The groups of choices of a store. -/
def voleChoices (t : ℕ) (r : OtRecvStore) (size : ℕ) : List (BitVec (8 * t)) :=
  (List.range size).map fun i => bitsOf (8 * t) fun j => r.choice (i * (8 * t) + j)

theorem exists_memcpyChoices {r : OtRecvStore} {size : ℕ} (h : size * (8 * t) ≤ r.size) :
    ∃ choices, r.copyBitBuf = .ok choices ∧
      memcpyChoices t choices size = .ok (voleChoices t r size) := by
  obtain ⟨choices, hcopy, hsize, hbits⟩ := r.copyBitBuf_eq
  have hlen : size * t ≤ (bitsetBytes choices).length := by
    have hmul : size * (8 * t) = 8 * (size * t) := by ring
    rw [length_bitsetBytes, blocksRequired]
    split <;> omega
  refine ⟨choices, hcopy, ?_⟩
  rw [memcpyChoices, if_pos hlen]
  refine congrArg Except.ok (List.map_congr_left fun i hi => ?_)
  rw [List.mem_range] at hi
  rw [wordAt_bitsetBytes]
  refine bitsOf_congr fun j hj => ?_
  rw [hbits, decide_eq_true (group_lt h hi hj), Bool.true_and]

end Entries

/-- **Vector OLE from correlated transfers.** For all types, every number of entries, and enough
correlated transfers with any correlation and any choices, both programs return, the entries of `u`
are the groups of choices, and `w = u * delta + v` in the field of `K`. -/
theorem ot2Vole_correct (V : VoleTypes) {r : OtRecvStore} {s : OtSendStore} {delta : Uint128}
    (hots : Cots r s delta) {w v : List (BitVec (8 * V.k))} {u : List (BitVec (8 * V.t))}
    (hw : w.length = u.length) (hv : v.length = u.length)
    (hsize : u.length * (8 * V.t) ≤ r.size) :
    ∃ w' u' v', ot2VoleSend V.gf s w = .ok w' ∧ ot2VoleRecv V.gf r u v = .ok (u', v') ∧
      w'.length = u.length ∧ u'.length = u.length ∧ v'.length = u.length ∧
      ∀ i < u.length, u'.getD i 0 = bitsOf (8 * V.t) (fun j => r.choice (i * (8 * V.t) + j)) ∧
        elem V.gf.modulo (w'.getD i 0) = elem V.gf.modulo (u'.getD i 0) *
          elem V.gf.modulo (delta.setWidth (8 * V.k)) + elem V.gf.modulo (v'.getD i 0) := by
  choose! x hx hblock using hots.block_eq
  have hsend : ∀ i < u.length, ∃ z, voleEntry V.gf (fun idx => s.getBlock idx 0) i = .ok z ∧ _ :=
    fun i hi => voleEntry_eq V.lawful fun j hj => hx _ (group_lt hsize hi hj)
  have hrecv : ∀ i < u.length, ∃ z, voleEntry V.gf r.getBlock i = .ok z ∧ _ :=
    fun i hi => voleEntry_eq V.lawful fun j hj => OtRecvStore.getBlock_eq (group_lt hsize hi hj)
  choose! a ha helemA using hsend
  choose! b hb helemB using hrecv
  obtain ⟨choices, hcopy, hchoices⟩ := exists_memcpyChoices hsize
  refine ⟨_, voleChoices V.t r u.length, _, ?_, ?_, (length_overwrite w 0 u.length a).trans hw, ?_,
    (length_overwrite v 0 u.length b).trans hv, fun i hi => ?_⟩
  · rw [ot2VoleSend, hw, enforce_bind (hots.size_eq ▸ hsize)]
    exact fillSpan_eq hw.ge ha
  · rw [ot2VoleRecv, enforce_bind hv.symm, enforce_bind hsize, hcopy, ok_bind, hchoices,
      fillSpan_eq hv.ge hb]
    rfl
  · rw [voleChoices, List.length_map, List.length_range]
  · rw [voleChoices, getD_map_range hi, getD_overwrite hw.ge hi, getD_overwrite hv.ge hi]
    refine ⟨rfl, ?_⟩
    rw [helemA i hi, helemB i hi,
      sum_correlated V.gf.modulo (8 * V.t) _ (fun j => r.choice (i * (8 * V.t) + j)) delta]
    congr 1
    refine Finset.sum_congr rfl fun j hj => ?_
    rw [hblock _ (group_lt hsize hi (Finset.mem_range.mp hj))]

/-- One entry of a subfield vector OLE, from sixty-four transfers with the choices
`1, 0, 1, 0, …`. -/
theorem ot2Vole_correct_one : ∃ r s, Cots r s s.delta ∧ ∃ w u v,
    ot2VoleSend (VoleTypes.gf .subfield) s [0] = .ok w ∧
      ot2VoleRecv (VoleTypes.gf .subfield) r [0] [0] = .ok (u, v) ∧
      elem gfModulo128 (w.getD 0 0) = elem gfModulo128 (u.getD 0 0) *
        elem gfModulo128 (s.delta.setWidth 128) + elem gfModulo128 (v.getD 0 0) := by
  obtain ⟨r, s, hbase, hdelta, -, -, -, hsize, -⟩ :=
    exists_compactOts (show 0 < 64 by omega) (by omega) fun i => decide (i % 2 = 0)
  obtain ⟨w, u, v, hw, huv, -, -, -, h⟩ := ot2Vole_correct .subfield (hbase.cots hdelta)
    (w := [0]) (u := [0]) (v := [0]) rfl rfl hsize.ge
  exact ⟨r, s, hbase.cots hdelta, w, u, v, hw, huv, (h 0 Nat.one_pos).2⟩

end Yacl.Crypto
