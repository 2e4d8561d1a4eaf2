import Yacl.Crypto.Tools
import Yacl.Kernel.OtStore
import Yacl.Utils.MatrixUtils

/-!
# Columns of an extension matrix

What the extensions of `yacl/kernel/algorithms` share. The blocks of the base transfers are
seeds; expanding the two seeds of transfer `k` gives the columns `t0 k` and `t1 k` of the
receiver, and one of them to the sender (`BaseOts.expand`). When the receiver sends
`t0 ^ t1 ^ r`, the sender ends up with `t0` or `t0 ^ r`, by its base choice
(`column_correlated`).

Transposing turns the columns into rows: the rows of the two parties differ by the vector of
the base choices, `OtRecvStore.choiceBlock`, wherever the bit of `r` is set
(`matrixTranspose128_correlated`).
-/

open Bits Loop

namespace Yacl.Crypto

variable (T : Tools)

/-- The choices of the first `128` base transfers, as one block. -/
def OtRecvStore.choiceBlock (s : OtRecvStore) : Uint128 := bitsOf 128 s.choice

theorem OtRecvStore.copyBitBuf_data {s : OtRecvStore} (h : s.size = 128) :
    (s.copyBitBuf >>= fun out => out.data 0) = .ok s.choiceBlock := by
  obtain ⟨out, hout, hsize, hbits⟩ := s.copyBitBuf_eq
  rw [hout, ok_bind, DynamicBitset.data_eq (by omega)]
  refine congrArg Except.ok (bitsOf_congr fun j hj => ?_)
  rw [hbits, decide_eq_true (by omega), Nat.zero_add, Bool.true_and]

/-- The loop that expands the blocks of the first `num` base transfers to columns of `blockNum`
blocks. -/
def expandRecv (base : OtRecvStore) (num blockNum : ℕ) : Except Exception (ℕ → ℕ → Uint128) :=
  forLoop num (fun k ts => do
    let b ← base.getBlock k
    pure (Function.update ts k (T.prgAesCtr 128 b blockNum))) fun _ _ => 0

/-- The loop that expands both blocks of the first `num` base transfers. -/
def expandSend (base : OtSendStore) (num blockNum : ℕ) :
    Except Exception ((ℕ → ℕ → Uint128) × (ℕ → ℕ → Uint128)) :=
  forLoop num (fun k ts => do
    let b0 ← base.getBlock k 0
    let b1 ← base.getBlock k 1
    pure (Function.update ts.1 k (T.prgAesCtr 128 b0 blockNum),
      Function.update ts.2 k (T.prgAesCtr 128 b1 blockNum))) (fun _ _ => 0, fun _ _ => 0)

theorem expandRecv_eq {base : OtRecvStore} {num : ℕ} (h : num ≤ base.size) (blockNum : ℕ) :
    ∃ ts, expandRecv T base num blockNum = .ok ts ∧
      ∀ k < num, ts k = T.prgAesCtr 128 (base.block k) blockNum := by
  refine ⟨_, forLoop_update (fun k _ => T.prgAesCtr 128 (base.block k) blockNum)
    (fun k hk ts => ?_) _, fun k hk => if_pos hk⟩
  rw [OtRecvStore.getBlock_eq (by omega)]
  rfl

/-- **The expanded base transfers.** The sender of the extension has, of every pair of columns,
the one that its base choice selects. -/
theorem BaseOts.expand {r : OtRecvStore} {s : OtSendStore} (h : BaseOts r s) (num : ℕ)
    (hnum : num ≤ r.size) (blockNum : ℕ) :
    ∃ ts t0 t1, expandRecv T r num blockNum = .ok ts ∧ expandSend T s num blockNum = .ok (t0, t1) ∧
      ∀ k < num, ts k = if r.choice k then t1 k else t0 k := by
  obtain ⟨ts, hts, hcols⟩ := expandRecv_eq T hnum blockNum
  suffices hsend : ∃ t : (ℕ → ℕ → Uint128) × (ℕ → ℕ → Uint128),
      expandSend T s num blockNum = .ok t ∧
        ∀ k < num, ts k = if r.choice k then t.2 k else t.1 k by
    obtain ⟨⟨t0, t1⟩, hsend, hk⟩ := hsend
    exact ⟨ts, t0, t1, hts, hsend, hk⟩
  refine forLoop_ok (fun j (t : (ℕ → ℕ → Uint128) × (ℕ → ℕ → Uint128)) =>
    ∀ k < j, ts k = if r.choice k then t.2 k else t.1 k) (by omega) fun j hj t ht => ?_
  obtain ⟨m, hm, hblock⟩ := h.getBlock_eq j (by omega)
  have h0 : s.getBlock j 0 = .ok (m false) := hm false
  have h1 : s.getBlock j 1 = .ok (m true) := hm true
  refine ⟨_, by rw [h0, h1]; rfl, fun k hk => ?_⟩
  dsimp only
  rcases Nat.lt_succ_iff_lt_or_eq.mp hk with hlt | rfl
  · rw [Function.update_of_ne hlt.ne, Function.update_of_ne hlt.ne, ht k hlt]
  · rw [Function.update_self, Function.update_self, hcols k hj, hblock]
    cases r.choice k <;> rfl

/-- **One column.** With the receiver's message the sender's column becomes `t0`, or `t0 ^ r` if
its base choice is set. -/
theorem column_correlated {c : Bool} {t t0 t1 : Uint128} (h : t = if c then t1 else t0)
    (r : Uint128) :
    (if c then t0 ^^^ t1 ^^^ r ^^^ t else t) = t0 ^^^ if c then r else 0 := by
  cases c with
  | false => simp [h]
  | true =>
    grind

/-- **Transposing.** If the columns of two matrices differ by `r` where `s` is set, then their
rows differ by `s` where `r` is set. -/
theorem matrixTranspose128_correlated (pf : Platform) {Q t : Matrix128} {s : ℕ → Bool}
    {r : Uint128} (h : ∀ k < 128, Q k = t k ^^^ if s k then r else 0) {j : ℕ} (hj : j < 128) :
    matrixTranspose128 pf Q j =
      matrixTranspose128 pf t j ^^^ if r.getLsbD j then bitsOf 128 s else 0 := by
  refine BitVec.eq_of_getLsbD_eq fun k hk => ?_
  rw [transposes_matrixTranspose128 pf Q j k hj hk, h k hk, BitVec.getLsbD_xor, BitVec.getLsbD_xor,
    transposes_matrixTranspose128 pf t j k hj hk, getLsbD_ite_zero, getLsbD_ite_zero,
    getLsbD_bitsOf_of_lt hk, Bool.and_comm]

/-! ### Correct transfers -/

/-- **A pair of the sender and a block of the receiver.** The receiver has the block of its
choice, and in COT mode the blocks of the pair differ by `delta`. -/
def OtCorrect (cot : Bool) (delta : Uint128) (choice : Bool) (pair : Uint128 × Uint128)
    (block : Uint128) : Prop :=
  block = (if choice then pair.2 else pair.1) ∧ (cot = true → pair.1 ^^^ pair.2 = delta)

/-- The outputs of an extension of `n` transfers are correct up to transfer `m`. -/
def OtsCorrect (cot : Bool) (delta : Uint128) (choices : DynamicBitset) (n m : ℕ)
    (sendBlocks : List (Uint128 × Uint128)) (recvBlocks : List Uint128) : Prop :=
  sendBlocks.length = n ∧ recvBlocks.length = n ∧ ∀ i < n, i < m → ∃ pair block,
    sendBlocks[i]? = some pair ∧ recvBlocks[i]? = some block ∧
      OtCorrect cot delta (choices.bit i) pair block

/-- A row of the sender and a row of the receiver are a correlated transfer. -/
theorem OtCorrect.cot {delta q t : Uint128} {choice : Bool}
    (h : q = t ^^^ if choice then delta else 0) :
    OtCorrect true delta choice (q, q ^^^ delta) t := by
  subst h
  refine ⟨?_, fun _ => ?_⟩
  · cases choice <;> simp
  · rw [← BitVec.xor_assoc, BitVec.xor_self, BitVec.zero_xor]

theorem OtCorrect.rot {delta q t : Uint128} {choice : Bool}
    (h : q = t ^^^ if choice then delta else 0) (hash : Uint128 → Uint128) :
    OtCorrect false delta choice (hash q, hash (q ^^^ delta)) (hash t) := by
  refine ⟨?_, fun hcot => absurd hcot Bool.false_ne_true⟩
  have hcot := (OtCorrect.cot h).1
  cases choice
  · exact congrArg hash hcot
  · exact congrArg hash hcot

end Yacl.Crypto
