import Yacl.Base.Int128
import Yacl.Lib.Bits
import Yacl.Lib.Reindex

/-!
# Bit matrix transposition: portable code

The model of `EklundhTranspose128` of `yacl/utils/matrix_utils.cc`. A
`std::array<uint128_t, 128>` is given by its entries, of which only those below `128` matter;
bit `c` of entry `r` is the entry of the matrix in row `r` and column `c`.

The function works in place on pairs of rows. `Represents m A` says that the array holds the
bit matrix `A`, and for every pair a lemma says how the bits move, in the terms of
`Reindex.reindexOn`. A round exchanges one bit of the row index with the same bit of the column
index (`eklundhRound_represents`), and the seven rounds exchange all of them
(`eklundhTranspose128_represents`).
-/

open Bits Loop Reindex

namespace Yacl

/-- `std::array<uint128_t, 128>`, by its entries. -/
abbrev Matrix128 := ℕ → Uint128

/-- The array holds the bit matrix `A`. -/
def Represents (m : Matrix128) (A : ℕ × ℕ → Bool) : Prop :=
  ∀ r c, c < 128 → (m r).getLsbD c = A (r, c)

/-- `trans_mask`. -/
def transMask : List Uint128 :=
  [makeUint128 0x0000000000000000 0xffffffffffffffff,
   makeUint128 0x00000000ffffffff 0x00000000ffffffff,
   makeUint128 0x0000ffff0000ffff 0x0000ffff0000ffff,
   makeUint128 0x00ff00ff00ff00ff 0x00ff00ff00ff00ff,
   makeUint128 0x0f0f0f0f0f0f0f0f 0x0f0f0f0f0f0f0f0f,
   makeUint128 0x3333333333333333 0x3333333333333333,
   makeUint128 0x5555555555555555 0x5555555555555555]

/-- `trans_mask_inv`. -/
def transMaskInv : List Uint128 :=
  [makeUint128 0xffffffffffffffff 0x0000000000000000,
   makeUint128 0xffffffff00000000 0xffffffff00000000,
   makeUint128 0xffff0000ffff0000 0xffff0000ffff0000,
   makeUint128 0xff00ff00ff00ff00 0xff00ff00ff00ff00,
   makeUint128 0xf0f0f0f0f0f0f0f0 0xf0f0f0f0f0f0f0f0,
   makeUint128 0xcccccccccccccccc 0xcccccccccccccccc,
   makeUint128 0xaaaaaaaaaaaaaaaa 0xaaaaaaaaaaaaaaaa]

/-- The innermost step of `EklundhTranspose128`, on the entries `i1` and `i2`. -/
def eklundhSwap (width : ℕ) (mask invMask : Uint128) (i1 i2 : ℕ) (m : Matrix128) : Matrix128 :=
  let t := m i1
  let tt := m i2
  Function.update (Function.update m i1 ((t &&& mask) ^^^ ((tt &&& mask) <<< width))) i2
    ((tt &&& invMask) ^^^ ((t &&& invMask) >>> width))

/-- One round of `EklundhTranspose128`; the state is the array, `width` and `nswaps`. -/
def eklundhRound (i : ℕ) (s : Matrix128 × ℕ × ℕ) : Matrix128 × ℕ × ℕ :=
  let (m, width, nswaps) := s
  let mask := transMask.getD i 0
  let invMask := transMaskInv.getD i 0
  (iterLoop nswaps (fun j m =>
    iterLoop width (fun k m =>
      eklundhSwap width mask invMask (k + 2 * width * j) (k + width + 2 * width * j) m) m) m,
   width / 2, nswaps * 2)

/-- `EklundhTranspose128`. -/
def eklundhTranspose128 (inout : Matrix128) : Matrix128 :=
  (iterLoop 7 eklundhRound (inout, 64, 1)).1

/-- What the masks of round `i` select, and how bit `w = 6 - i` of an index changes when the
width is added or subtracted. -/
theorem transMask_spec : ∀ w < 7, ∀ c < 128,
    (transMask.getD (6 - w) 0).getLsbD c = !c.testBit w ∧
    (transMaskInv.getD (6 - w) 0).getLsbD c = c.testBit w := by
  decide +kernel

/-- Where bit `w` of an index is set, subtracting `2 ^ w` clears it; adding `2 ^ w` clears it
too, with a carry. -/
theorem testBit_true_spec : ∀ w < 7, ∀ c < 128, c.testBit w = true →
    2 ^ w ≤ c ∧ c - 2 ^ w = c ^^^ 2 ^ w ∧ (c + 2 ^ w).testBit w = false := by
  decide +kernel

/-- Where bit `w` of an index is clear, adding `2 ^ w` sets it; subtracting `2 ^ w` sets it
too, with a borrow. -/
theorem testBit_false_spec : ∀ w < 7, ∀ c < 128, c.testBit w = false →
    c + 2 ^ w < 128 ∧ c + 2 ^ w = c ^^^ 2 ^ w ∧ (2 ^ w ≤ c → (c - 2 ^ w).testBit w = true) := by
  decide +kernel

variable {w : ℕ} {m : Matrix128} {A : ℕ × ℕ → Bool}

/-- **One pair of rows.** The step on the rows `i1`, whose bit `w` is clear, and `i2`, where it
is set, exchanges bit `w` of the row index with that of the column index. -/
theorem eklundhSwap_represents (hw : w < 7) {i1 i2 : ℕ} (h1 : i1.testBit w = false)
    (h2 : i2 = i1 ^^^ 2 ^ w) (hA : Represents m A) :
    Represents (eklundhSwap (2 ^ w) (transMask.getD (6 - w) 0) (transMaskInv.getD (6 - w) 0)
        i1 i2 m)
      (reindexOn (fun x => x.1 = i1 ∨ x.1 = i2) (exch w) A) := by
  have hne : i1 ≠ i2 := by
    rintro rfl
    have := congrArg (Nat.testBit · w) h2
    simp [h1] at this
  have hbit2 : i2.testBit w = true := by
    rw [h2, Nat.testBit_xor, Nat.testBit_two_pow_self, h1]
    rfl
  have hback : i2 ^^^ 2 ^ w = i1 := by rw [h2, Nat.xor_assoc, Nat.xor_self, Nat.xor_zero]
  intro r c hc
  obtain ⟨hmask, hinv⟩ := transMask_spec w hw c hc
  have htrue := testBit_true_spec w hw c hc
  have hfalse := testBit_false_spec w hw c hc
  rw [eklundhSwap]
  by_cases hr1 : r = i1
  · subst hr1
    obtain ⟨hmask', -⟩ := transMask_spec w hw (c - 2 ^ w) (lt_of_le_of_lt (Nat.sub_le _ _) hc)
    rw [Function.update_of_ne hne, Function.update_self, reindexOn_of_mem (.inl rfl), exch]
    simp only [h1, BitVec.getLsbD_xor, BitVec.getLsbD_and, BitVec.getLsbD_shiftLeft, hmask, hmask',
      hc]
    cases hb : c.testBit w with
    | false =>
      rw [hA _ _ hc]
      by_cases hlt : c < 2 ^ w
      · simp [hlt]
      · simp [(hfalse hb).2.2 (by omega)]
    | true =>
      obtain ⟨hle, hsub, -⟩ := htrue hb
      rw [if_neg (by simp), ← h2, ← hsub, ← hA _ _ (lt_of_le_of_lt (Nat.sub_le _ _) hc)]
      have hclear : (c - 2 ^ w).testBit w = false := by
        rw [hsub, Nat.testBit_xor, Nat.testBit_two_pow_self, hb]
        rfl
      simp [hclear, Nat.not_lt.mpr hle]
  by_cases hr2 : r = i2
  · subst hr2
    rw [Function.update_self, reindexOn_of_mem (.inr rfl), exch]
    simp only [hbit2, BitVec.getLsbD_xor, BitVec.getLsbD_and, BitVec.getLsbD_ushiftRight, hinv,
      Nat.add_comm (2 ^ w) c]
    cases hb : c.testBit w with
    | false =>
      obtain ⟨hlt, hadd, -⟩ := hfalse hb
      have hset : (c + 2 ^ w).testBit w = true := by
        rw [hadd, Nat.testBit_xor, Nat.testBit_two_pow_self, hb]
        rfl
      rw [if_neg (by simp), hback, ← hadd, ← hA _ _ hlt, (transMask_spec w hw _ hlt).2, hset,
        Bool.and_false, Bool.false_xor, Bool.and_true]
    | true =>
      rw [if_pos rfl, hA _ _ hc, Bool.and_true]
      by_cases hlt : c + 2 ^ w < 128
      · rw [(transMask_spec w hw _ hlt).2, (htrue hb).2.2, Bool.and_false, Bool.xor_false]
      · simp [BitVec.getLsbD_of_ge _ _ (Nat.le_of_not_lt hlt)]
  · rw [Function.update_of_ne hr2, Function.update_of_ne hr1,
      reindexOn_of_notMem (by simp [hr1, hr2]), hA _ _ hc]

theorem xor_two_pow_lt (hw : w < 7) (r : ℕ) (hr : r < 128) : r ^^^ 2 ^ w < 128 :=
  Nat.xor_lt_two_pow hr (Nat.pow_lt_pow_right (by omega) hw)

/-- **One round** exchanges one bit of the indices, in all rows. -/
theorem eklundhRound_represents (hw : w < 7) (hA : Represents m A) :
    Represents (eklundhRound (6 - w) (m, 2 ^ w, 2 ^ (6 - w))).1
      (reindexOn (fun x => x.1 < 128) (exch w) A) := by
  have hsize : 2 ^ (6 - w) * (2 * 2 ^ w) = 128 := by
    rw [← pow_succ', ← pow_add, show 6 - w + (w + 1) = 7 by omega]
    rfl
  have hrow : ∀ j < 2 ^ (6 - w), ∀ k < 2 ^ w, k + 2 * 2 ^ w * j < 128 ∧
      (k + 2 * 2 ^ w * j).testBit w = false := by
    intro j hj k hk
    constructor
    · calc k + 2 * 2 ^ w * j < 2 * 2 ^ w * (j + 1) := by rw [Nat.mul_succ]; omega
        _ ≤ 2 * 2 ^ w * 2 ^ (6 - w) := Nat.mul_le_mul_left _ hj
        _ = 128 := by rw [Nat.mul_comm, hsize]
    · rw [Nat.testBit_eq_decide_div_mod_eq, show 2 * 2 ^ w * j = 2 ^ w * (2 * j) by ring,
        Nat.add_mul_div_left _ _ (Nat.two_pow_pos w), Nat.div_eq_of_lt hk]
      simp
  have hxor : ∀ j < 2 ^ (6 - w), ∀ k < 2 ^ w,
      k + 2 ^ w + 2 * 2 ^ w * j = (k + 2 * 2 ^ w * j) ^^^ 2 ^ w := by
    intro j hj k hk
    obtain ⟨hlt, hbit⟩ := hrow j hj k hk
    rw [← (testBit_false_spec w hw _ hlt hbit).2.1]
    omega
  have hmove := iterLoop_butterfly Represents
    (fun k x => x.1 = k) (fun k k' x h h' => h.symm.trans h') id (fun a ha => ⟨ha, rfl⟩) _
    (fun j hj k hk x hx => exch_pair_closed (hxor j hj k hk) hx)
    (fun j hj k hk m A hA => eklundhSwap_represents hw (hrow j hj k hk).2 (hxor j hj k hk) hA) hA
  refine (reindexOn_congr fun x => ?_) ▸ hmove
  rw [hsize]
  exact ⟨fun ⟨k, hk, hx⟩ => hx ▸ hk, fun hx => ⟨x.1, hx, rfl⟩⟩

/-- **`EklundhTranspose128`** exchanges all bits of the indices. -/
theorem eklundhTranspose128_represents (hA : Represents m A) :
    Represents (eklundhTranspose128 m)
      (reindexOn (fun x => x.1 < 128) (exchAll [6, 5, 4, 3, 2, 1, 0]) A) := by
  have hloop : Represents (iterLoop 7 eklundhRound (m, 64, 1)).1
        (reindexOn (fun x => x.1 < 128) (exchAll ((List.range 7).map (6 - ·))) A) ∧ _ :=
    iterLoop_inv (fun i (s : Matrix128 × ℕ × ℕ) =>
      Represents s.1 (reindexOn (fun x => x.1 < 128) (exchAll ((List.range i).map (6 - ·))) A) ∧
        s.2 = (2 ^ 6 / 2 ^ i, 2 ^ i)) ⟨(reindexOn_exchAll_nil _ A).symm ▸ hA, rfl⟩ ?_
  · exact hloop.1
  · rintro i hi ⟨m, width, nswaps⟩ ⟨hm, hs⟩
    obtain ⟨rfl, rfl⟩ := Prod.ext_iff.mp hs
    have hwidth : 2 ^ 6 / 2 ^ i = 2 ^ (6 - i) := Nat.pow_div (by omega) (by omega)
    have hround := eklundhRound_represents (w := 6 - i) (by omega) hm
    have hmore := reindexOn_exchAll [6 - i]
      (by simpa using xor_two_pow_lt (by omega)) ((List.range i).map (6 - ·)) A
    rw [show exchAll [6 - i] = exch (6 - i) from rfl] at hmore
    rw [hmore, show 6 - (6 - i) = i by omega] at hround
    refine ⟨?_, ?_⟩
    · rw [List.range_succ, List.map_append]
      simp only [hwidth]
      exact hround
    · rw [eklundhRound, Nat.div_div_eq_div_mul, ← pow_succ]

end Yacl
