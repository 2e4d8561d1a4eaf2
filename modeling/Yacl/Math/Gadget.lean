import Mathlib.Tactic
import Yacl.Base.Exception

/-!
# Gadgets

The logarithms of `yacl/math/gadget.h`. `Log2Ceil` is the height of the smallest binary tree with
a given number of leaves (`log2Ceil_spec`).
-/

namespace Yacl.Math

/-- `Log2Floor`. -/
def log2Floor (x : ℕ) : Except Exception ℕ := do
  enforce (x ≠ 0) "x != 0" "log2(0) is undefined"
  pure x.log2

/-- `Log2Ceil`. -/
def log2Ceil (x : ℕ) : Except Exception ℕ := do
  enforce (x ≠ 0) "x != 0" "log2(0) is undefined"
  if x = 1 then pure 0 else do
    let l ← log2Floor (x - 1)
    pure (l + 1)

/-- **The height of a tree** with `n` leaves. -/
theorem log2Ceil_spec {n : ℕ} (h : 1 < n) :
    ∃ l, log2Ceil n = .ok (l + 1) ∧ 2 ^ l < n ∧ n ≤ 2 ^ (l + 1) := by
  refine ⟨(n - 1).log2, ?_, ?_, ?_⟩
  · rw [log2Ceil, enforce_bind (by omega), if_neg (by omega), log2Floor, enforce_of_pos (by omega)]
    rfl
  · have := Nat.log2_self_le (show n - 1 ≠ 0 by omega)
    omega
  · have := Nat.lt_log2_self (n := n - 1)
    omega

/-- The value of `Log2Ceil`, which is defined for all numbers except zero. -/
def ceilLog2 (x : ℕ) : ℕ := if x = 1 then 0 else (x - 1).log2 + 1

theorem log2Ceil_eq {x : ℕ} (h : x ≠ 0) : log2Ceil x = .ok (ceilLog2 x) := by
  rw [log2Ceil, enforce_bind h, ceilLog2]
  split
  · rfl
  · rw [log2Floor, enforce_of_pos (by omega)]
    rfl

theorem of_log2Ceil {x l : ℕ} (h : log2Ceil x = .ok l) : x ≠ 0 ∧ l = ceilLog2 x := by
  have hx := (of_enforce_bind h).1
  exact ⟨hx, Except.ok.inj (h.symm.trans (log2Ceil_eq hx))⟩

theorem ceilLog2_le_self {x : ℕ} (h : x ≠ 0) : ceilLog2 x ≤ x := by
  rw [ceilLog2]
  split
  · omega
  · have := Nat.log2_le_self (x - 1)
    omega

theorem ceilLog2_spec {n : ℕ} (h : 1 < n) :
    ∃ l, ceilLog2 n = l + 1 ∧ 2 ^ l < n ∧ n ≤ 2 ^ (l + 1) := by
  obtain ⟨l, hl, hlow, hn⟩ := log2Ceil_spec h
  exact ⟨l, Except.ok.inj ((log2Ceil_eq (by omega)).symm.trans hl), hlow, hn⟩

theorem ceilLog2_mono {m n : ℕ} (hm : 1 < m) (h : m ≤ n) : ceilLog2 m ≤ ceilLog2 n := by
  obtain ⟨k, hk, hlow, -⟩ := ceilLog2_spec hm
  obtain ⟨l, hl, -, hn⟩ := ceilLog2_spec (hm.trans_le h)
  have hlt : k < l + 1 := (Nat.pow_lt_pow_iff_right (by omega)).mp (hlow.trans_le (h.trans hn))
  omega

theorem ceilLog2_le {n k : ℕ} (h1 : 1 < n) (h : n ≤ 2 ^ k) : ceilLog2 n ≤ k := by
  obtain ⟨l, hl, hlow, -⟩ := ceilLog2_spec h1
  have hlt : l < k := (Nat.pow_lt_pow_iff_right (by omega)).mp (hlow.trans_le h)
  omega

theorem log2Ceil_of_le {n l : ℕ} (hlow : 2 ^ l < n) (hn : n ≤ 2 ^ (l + 1)) :
    log2Ceil n = .ok (l + 1) := by
  have h1 : 1 < n := Nat.one_le_two_pow.trans_lt hlow
  obtain ⟨k, hk, -, hnk⟩ := ceilLog2_spec h1
  have hle := ceilLog2_le h1 hn
  have hlt : l < k + 1 := (Nat.pow_lt_pow_iff_right (by omega)).mp (hlow.trans_le hnk)
  rw [log2Ceil_eq (by omega), hk, show k = l by omega]

/-- `DivCeil`. -/
def divCeil (x y : ℕ) : ℕ := if x = 0 then 0 else 1 + (x - 1) / y

end Yacl.Math
