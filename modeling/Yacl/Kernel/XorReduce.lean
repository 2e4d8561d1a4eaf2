import Yacl.Base.Exception
import Yacl.Base.Int128
import Yacl.Lib.XorSum

/-!
# Sums over leaves, in place

`XorReduce` of the SoftSpoken extension (`yacl/kernel/algorithms/softspoken_ote.cc`). The buffer
holds blocks of `2 ^ k` leaves. Each block is folded in place: it then starts with the sum of its
leaves, followed by the sums of the leaves whose index has bit `0, …, k - 1` (`Reduced`). The pass
at `depth` joins blocks of `2 ^ (depth - 1)` entries in pairs (`Reduced.join`). It overwrites
entries of the left block only, and the first one of the right block by itself.
-/

open Loop XorSum

namespace Yacl.Crypto

/-! ### The code -/

def xorReduceStep (stride i j : ℕ) (inout : List Uint128) : Except Exception (List Uint128) := do
  let a ← vecGet inout (i + j)
  let b ← vecGet inout (i + j + stride)
  vecSet inout (i + j) (a ^^^ b)

/-- The two blocks from `i` on. -/
def xorReduceBlock (depth stride i : ℕ) (inout : List Uint128) :
    Except Exception (List Uint128) := do
  let inout ← forLoop depth (xorReduceStep stride i) inout
  let a ← vecGet inout (i + stride)
  vecSet inout (i + depth) a

/-- The next index, of type `uint64_t`. -/
def xorReduceNext (depth stride : ℕ) (s : ℕ × List Uint128) :
    Except Exception (ℕ × List Uint128) := do
  let inout ← xorReduceBlock depth stride s.1 s.2
  pure ((s.1 + 2 * stride) % 2 ^ 64, inout)

def xorReduceBlocks (depth stride : ℕ) (inout : List Uint128) :
    Except Exception (List Uint128) := do
  let bufSize := inout.length
  let s ← whileLoop .nonTermination (fun s => s.1 < bufSize) (xorReduceNext depth stride) bufSize
    (0, inout)
  pure s.2

/-- `XorReduce<k>(inout)`. -/
def xorReduceTemplate : ℕ → List Uint128 → Except Exception (List Uint128)
  | 0, inout => pure inout
  | k + 1, inout => xorReduceTemplate k inout >>= xorReduceBlocks (k + 1) (1 <<< k)

/-- `XorReduce(k, inout)`. -/
def xorReduce (k : ℕ) (inout : List Uint128) : Except Exception (List Uint128) := do
  enforce (k ≤ 64) "k <= 64" ""
  forLoop k (fun d => xorReduceBlocks (d + 1) (1 <<< d)) inout

/-- `XorReduceImpl`. -/
def xorReduceImpl (k : ℕ) (inout : List Uint128) : Except Exception (List Uint128) :=
  if 1 ≤ k ∧ k ≤ 8 then xorReduceTemplate k inout else xorReduce k inout

/-! ### One pass -/

/-- The entry at `p` after the blocks at `i` were joined. -/
def joined (depth stride i : ℕ) (f : ℕ → Uint128) (p : ℕ) : Uint128 :=
  if p < i ∨ i + depth < p then f p
  else if p = i + depth then f (i + stride) else f p ^^^ f (p + stride)

section Pass

variable {depth stride i : ℕ} {buf : List Uint128}

theorem xorReduceBlock_eq (hdepth : depth ≤ stride) (hpos : 0 < stride)
    (hlen : i + 2 * stride ≤ buf.length) :
    ∃ out, xorReduceBlock depth stride i buf = .ok out ∧ out.length = buf.length ∧
      ∀ p, out.getD p 0 = joined depth stride i (buf.getD · 0) p := by
  -- the loop reads entries of the right block, which it does not write
  obtain ⟨out, hloop, hout, hval⟩ := forLoop_ok (s := buf) (n := depth)
    (f := xorReduceStep stride i)
    (fun j out => out.length = buf.length ∧ ∀ p, out.getD p 0 =
      if i ≤ p ∧ p < i + j then buf.getD p 0 ^^^ buf.getD (p + stride) 0 else buf.getD p 0)
    ⟨rfl, fun p => by rw [if_neg (by omega)]⟩ fun j hj out h => by
      have hleft : i + j < out.length := by omega
      refine ⟨out.set (i + j) (out.getD (i + j) 0 ^^^ out.getD (i + j + stride) 0), ?_,
        (List.length_set ..).trans h.1, fun p => ?_⟩
      · rw [xorReduceStep, vecGet_getD hleft 0, ok_bind,
          vecGet_getD (show i + j + stride < out.length by omega) 0, ok_bind, vecSet_of_lt hleft]
      · rw [getD_set hleft]
        by_cases hp : p = i + j
        · rw [if_pos hp, h.2, h.2, if_neg (by omega), if_neg (by omega), if_pos (by omega), hp]
        · rw [if_neg hp, h.2]
          exact if_congr (by omega) rfl rfl
  have hright : i + depth < out.length := by omega
  refine ⟨out.set (i + depth) (out.getD (i + stride) 0), ?_, (List.length_set ..).trans hout,
    fun p => ?_⟩
  · rw [xorReduceBlock, hloop, ok_bind, vecGet_getD (show i + stride < out.length by omega) 0,
      ok_bind, vecSet_of_lt hright]
  · rw [getD_set hright, joined]
    by_cases hp : p = i + depth
    · rw [if_pos hp, if_neg (by omega), if_pos hp, hval, if_neg (by omega)]
    · rw [if_neg hp, if_neg hp, hval]
      split_ifs <;> first | rfl | omega

/-- **One pass** joins all pairs of blocks. -/
theorem xorReduceBlocks_eq (hdepth : depth ≤ stride) (hpos : 0 < stride)
    (hlen : buf.length < 2 ^ 64) (hdvd : 2 * stride ∣ buf.length) :
    ∃ out, xorReduceBlocks depth stride buf = .ok out ∧ out.length = buf.length ∧
      ∀ p < buf.length, out.getD p 0 =
        joined depth stride (p / (2 * stride) * (2 * stride)) (buf.getD · 0) p := by
  obtain ⟨⟨i, out⟩, hloop, ⟨m, hi, hout, hval⟩, hend⟩ :=
    whileLoop_ok (s := (0, buf)) .nonTermination (fun s => s.1 < buf.length)
    (xorReduceNext depth stride)
    (fun s => ∃ m, s.1 = m * (2 * stride) ∧ s.2.length = buf.length ∧ ∀ p, s.2.getD p 0 =
      if p < s.1 then joined depth stride (p / (2 * stride) * (2 * stride)) (buf.getD · 0) p
      else buf.getD p 0)
    (fun s => buf.length - s.1) (Nat.sub_le _ _) ⟨0, by simp⟩ (by
      rintro ⟨i, cur⟩ ⟨m, hi, hcur, hval⟩ hlt
      dsimp only at hi hcur hval hlt
      have hle : i + 2 * stride ≤ buf.length := by
        have hmul : 2 * stride ∣ buf.length - i := Nat.dvd_sub hdvd (hi ▸ Nat.dvd_mul_left _ _)
        have := Nat.le_of_dvd (by omega) hmul
        omega
      obtain ⟨out, hblock, hout, hnew⟩ := xorReduceBlock_eq hdepth hpos (hcur ▸ hle)
      refine ⟨(i + 2 * stride, out), ?_, ⟨m + 1, ?_, hout.trans hcur, fun p => ?_⟩, ?_⟩
      · rw [xorReduceNext, hblock, ok_bind, Nat.mod_eq_of_lt (by omega)]
        rfl
      · exact hi ▸ (Nat.succ_mul m (2 * stride)).symm
      · have hrest : ∀ q, i ≤ q → cur.getD q 0 = buf.getD q 0 := fun q hq => by
          rw [hval, if_neg (by omega)]
        rw [hnew, joined]
        dsimp only
        by_cases hp : p < i
        · rw [if_pos (.inl hp), hval, if_pos hp, if_pos (by omega)]
        by_cases hp' : p < i + 2 * stride
        · have hdiv : p / (2 * stride) = m :=
            Nat.div_eq_of_lt_le (by omega) (by rw [Nat.succ_mul]; omega)
          rw [if_pos hp', hdiv, ← hi, joined, hrest p (by omega), hrest (p + stride) (by omega),
            hrest (i + stride) (by omega)]
        · rw [if_pos (.inr (by omega)), hrest p (by omega), if_neg hp']
      · dsimp only
        omega)
  refine ⟨out, ?_, hout, fun p hp => ?_⟩
  · rw [xorReduceBlocks, hloop]
    rfl
  · dsimp only at hend hval
    rw [hval, if_pos (by omega)]

end Pass

/-! ### All passes -/

/-- The leaves whose sum is entry `r` of a block: all of them, or those whose index has bit
`r - 1`. -/
def selects (r x : ℕ) : Bool := r = 0 || x.testBit (r - 1)

/-- Each block of `2 ^ k` entries starts with these sums. -/
def Reduced (k : ℕ) (leaves out : List Uint128) : Prop :=
  ∀ b, (b + 1) * 2 ^ k ≤ leaves.length → ∀ r ≤ k, out.getD (b * 2 ^ k + r) 0 =
    xorSum (2 ^ k) fun x => if selects r x then leaves.getD (b * 2 ^ k + x) 0 else 0

/-- **A pass takes blocks to blocks of twice the size.** -/
theorem Reduced.join {d : ℕ} {leaves mid out : List Uint128} (h : Reduced d leaves mid)
    (hout : ∀ p < leaves.length, out.getD p 0 =
      joined (d + 1) (2 ^ d) (p / (2 * 2 ^ d) * (2 * 2 ^ d)) (mid.getD · 0) p) :
    Reduced (d + 1) leaves out := by
  intro b hb r hr
  have hd : d + 1 ≤ 2 ^ d := Nat.lt_two_pow_self
  have hbase : b * (2 * 2 ^ d) = 2 * b * 2 ^ d := by ring
  have hnext : (2 * b + 1) * 2 ^ d = 2 * b * 2 ^ d + 2 ^ d := Nat.succ_mul ..
  rw [Nat.pow_succ'] at hb ⊢
  rw [Nat.succ_mul, hbase] at hb
  have hdiv : (2 * b * 2 ^ d + r) / (2 * 2 ^ d) = b :=
    Nat.div_eq_of_lt_le (by omega) (by rw [Nat.succ_mul b]; omega)
  have hleft := h (2 * b) (by rw [Nat.succ_mul]; omega)
  have hright := h (2 * b + 1) (by rw [Nat.succ_mul, hnext]; omega)
  rw [hnext] at hright
  rw [hbase, hout _ (by omega), hdiv, hbase, joined, if_neg (by omega), Nat.two_mul (2 ^ d),
    xorSum_add]
  rcases hr.lt_or_eq with hlt | rfl
  · rw [if_neg (by omega), hleft r (by omega), Nat.add_right_comm, hright r (by omega)]
    congr 1
    refine xorSum_congr fun x _ => ?_
    have hbit : selects r (2 ^ d + x) = selects r x := by
      rcases r with - | j
      · rfl
      · exact Nat.testBit_two_pow_add_gt (Nat.lt_of_succ_lt_succ hlt) x
    rw [hbit, Nat.add_assoc]
  · -- bit `d` is set in the right block only
    have hzero : (xorSum (2 ^ d) fun x =>
        if selects (d + 1) x then leaves.getD (2 * b * 2 ^ d + x) 0 else 0) = 0 := by
      refine xorSum_eq_zero fun x hx => if_neg ?_
      rw [selects, Nat.add_sub_cancel, Nat.testBit_lt_two_pow hx]
      exact Bool.false_ne_true
    rw [if_pos rfl, ← Nat.add_zero (_ + 2 ^ d), hright 0 (Nat.zero_le d), hzero]
    refine (xorSum_congr fun x hx => ?_).trans BitVec.zero_xor.symm
    have hbit : selects (d + 1) (2 ^ d + x) = true := by
      rw [selects, Nat.add_sub_cancel, Nat.testBit_two_pow_add_eq, Nat.testBit_lt_two_pow hx]
      rfl
    rw [hbit, Nat.add_assoc]
    rfl

theorem xorReduceTemplate_eq (k : ℕ) (inout : List Uint128) :
    xorReduceTemplate k inout = forLoop k (fun d => xorReduceBlocks (d + 1) (1 <<< d)) inout := by
  induction k with
  | zero => rfl
  | succ k ih => rw [xorReduceTemplate, ih, forLoop_succ]

/-- All ways to reduce blocks of `2 ^ k` entries return the same buffer, which is reduced. -/
def Reduces (k : ℕ) : Prop :=
  ∀ leaves : List Uint128, leaves.length < 2 ^ 64 → 2 ^ k ∣ leaves.length →
    ∃ out, xorReduce k leaves = .ok out ∧ xorReduceTemplate k leaves = .ok out ∧
      xorReduceImpl k leaves = .ok out ∧ out.length = leaves.length ∧ Reduced k leaves out

/-- **`XorReduce`**, for all `k` that its check lets pass. -/
theorem xorReduce_reduces (k : ℕ) :
    (k ≤ 64 → Reduces k) ∧
      (64 < k → ∀ leaves, xorReduce k leaves = .error (.enforceNotMet "k <= 64" "")) := by
  constructor
  · intro hk leaves hlen hdvd
    obtain ⟨out, hloop, hout, hreduced⟩ := forLoop_ok (n := k)
      (f := fun d => xorReduceBlocks (d + 1) (1 <<< d)) (s := leaves)
      (fun d out => out.length = leaves.length ∧ Reduced d leaves out)
      ⟨rfl, fun b _ r hr => by rw [Nat.le_zero.mp hr]; exact BitVec.zero_xor.symm⟩
      fun d hd mid h => by
        rw [Nat.one_shiftLeft]
        obtain ⟨out, hpass, hout, hval⟩ := xorReduceBlocks_eq Nat.lt_two_pow_self
          (Nat.two_pow_pos d) (h.1.trans_lt hlen)
          (h.1 ▸ Nat.pow_succ' ▸ (Nat.pow_dvd_pow 2 hd).trans hdvd)
        exact ⟨out, hpass, hout.trans h.1, h.2.join (h.1 ▸ hval)⟩
    have hgeneric : xorReduce k leaves = .ok out := by rw [xorReduce, enforce_bind hk, hloop]
    have htemplate : xorReduceTemplate k leaves = .ok out := by rw [xorReduceTemplate_eq, hloop]
    refine ⟨out, hgeneric, htemplate, ?_, hout, hreduced⟩
    rw [xorReduceImpl]
    split
    · exact htemplate
    · exact hgeneric
  · intro hk leaves
    rw [xorReduce, enforce_of_neg (by omega)]
    rfl

end Yacl.Crypto
