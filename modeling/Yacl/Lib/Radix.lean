import Mathlib.Tactic

/-!
# Positional notation and bit caches

`value b n f` is the number whose `n` digits in base `2 ^ b`, least significant first, are given by
`f`. Digits are recovered by division (`div_value_mod`), and every number below `2 ^ (b * n)` is the
value of its digits (`value_digits`).

A program that repacks digits of one width into digits of another keeps the bits that it has read
and not written yet in a **bit cache**, a word that is shifted. `Cache total V done P cache rem`
says that `total` bits of value `V` were read, `done` bits of value `P` were written and the cache
holds the `rem` bits in between; `Cache.feed` and `Cache.take` are the two moves.
-/

namespace Radix

/-- The value of `n` digits in base `2 ^ b`. -/
def value (b n : ℕ) (f : ℕ → ℕ) : ℕ := ∑ i ∈ Finset.range n, f i * 2 ^ (b * i)

@[simp]
theorem value_zero (b : ℕ) (f : ℕ → ℕ) : value b 0 f = 0 := rfl

theorem value_succ (b n : ℕ) (f : ℕ → ℕ) :
    value b (n + 1) f = value b n f + f n * 2 ^ (b * n) :=
  Finset.sum_range_succ _ n

variable {b n : ℕ} {f : ℕ → ℕ}

theorem value_congr {g : ℕ → ℕ} (h : ∀ i < n, f i = g i) : value b n f = value b n g :=
  Finset.sum_congr rfl fun i hi => by rw [h i (Finset.mem_range.mp hi)]

theorem value_eq_of_zero {m : ℕ} (hnm : n ≤ m) (h : ∀ i, n ≤ i → i < m → f i = 0) :
    value b m f = value b n f := by
  refine (Finset.sum_subset (Finset.range_mono hnm) fun i hi hni => ?_).symm
  rw [Finset.mem_range] at hi hni
  rw [h i (by omega) hi, Nat.zero_mul]

theorem value_add (b n m : ℕ) (f : ℕ → ℕ) :
    value b (n + m) f = value b n f + value b m (fun i => f (n + i)) * 2 ^ (b * n) := by
  rw [value, Finset.sum_range_add, value, value, Finset.sum_mul]
  refine congrArg _ (Finset.sum_congr rfl fun i _ => ?_)
  rw [Nat.mul_assoc, ← pow_add, Nat.mul_add, Nat.add_comm (b * n)]

theorem value_lt (h : ∀ i < n, f i < 2 ^ b) : value b n f < 2 ^ (b * n) := by
  induction n with
  | zero => simp
  | succ n ih =>
    have hlow := ih fun i hi => h i (by omega)
    have htop : f n + 1 ≤ 2 ^ b := h n (by omega)
    calc value b (n + 1) f
        = value b n f + f n * 2 ^ (b * n) := value_succ b n f
      _ < 2 ^ (b * n) + f n * 2 ^ (b * n) := by omega
      _ = (f n + 1) * 2 ^ (b * n) := by ring
      _ ≤ 2 ^ b * 2 ^ (b * n) := Nat.mul_le_mul_right _ htop
      _ = 2 ^ (b * (n + 1)) := by rw [← pow_add]; ring_nf

theorem value_div {m : ℕ} (h : ∀ i < n, f i < 2 ^ b) :
    value b (n + m) f / 2 ^ (b * n) = value b m fun i => f (n + i) := by
  rw [value_add, Nat.add_mul_div_right _ _ (Nat.two_pow_pos _), Nat.div_eq_of_lt (value_lt h),
    Nat.zero_add]

/-- **The digits** of a value. -/
theorem div_value_mod {i : ℕ} (h : ∀ i < n, f i < 2 ^ b) (hi : i < n) :
    value b n f / 2 ^ (b * i) % 2 ^ b = f i := by
  obtain ⟨m, rfl⟩ := Nat.exists_eq_add_of_lt hi
  rw [Nat.add_assoc, value_div fun k hk => h k (by omega), Nat.add_comm m 1, value_add, value_succ]
  simp [Nat.mod_eq_of_lt (h i hi)]

/-- **The value of the digits** of a number. -/
theorem value_digits (b n V : ℕ) :
    value b n (fun i => V / 2 ^ (b * i) % 2 ^ b) = V % 2 ^ (b * n) := by
  induction n with
  | zero => simp [Nat.mod_one]
  | succ n ih =>
    rw [value_succ, ih, Nat.mul_succ, pow_add, Nat.mod_mul, Nat.mul_comm (2 ^ (b * n))]

/-! ### Bit caches -/

/-- The bits that were read and not written yet. -/
structure Cache (total V done P cache rem : ℕ) : Prop where
  value_eq : V = P + cache * 2 ^ done
  lt : cache < 2 ^ rem
  bits : done + rem = total

theorem or_shiftLeft {c x r : ℕ} (h : c < 2 ^ r) : c ||| x <<< r = c + x * 2 ^ r := by
  rw [Nat.or_comm, ← Nat.shiftLeft_add_eq_or_of_lt h, Nat.shiftLeft_eq, Nat.add_comm]

theorem Cache.empty : Cache 0 0 0 0 0 0 :=
  ⟨rfl, Nat.one_pos, rfl⟩

variable {total V done P cache rem : ℕ}

/-- **Reading** `a` bits. -/
theorem Cache.feed {a x : ℕ} (h : Cache total V done P cache rem) (hx : x < 2 ^ a) :
    Cache (total + a) (V + x * 2 ^ total) done P (cache ||| x <<< rem) (rem + a) := by
  refine ⟨?_, ?_, by rw [← Nat.add_assoc, h.bits]⟩
  · rw [or_shiftLeft h.lt, h.value_eq, ← h.bits]
    ring
  · rw [or_shiftLeft h.lt, pow_add]
    have hmul : (x + 1) * 2 ^ rem ≤ 2 ^ a * 2 ^ rem := Nat.mul_le_mul_right _ hx
    have hlt := h.lt
    rw [Nat.mul_comm (2 ^ rem)]
    rw [Nat.add_mul] at hmul
    omega

/-- **Writing** `b` bits. -/
theorem Cache.take (h : Cache total V done P cache rem) (hb : b ≤ rem) :
    Cache total V (done + b) (P + cache % 2 ^ b * 2 ^ done) (cache >>> b) (rem - b) := by
  have hsplit := Nat.div_add_mod cache (2 ^ b)
  refine ⟨?_, ?_, by rw [← h.bits]; omega⟩
  · rw [Nat.shiftRight_eq_div_pow, h.value_eq]
    nth_rewrite 1 [← hsplit]
    ring
  · rw [Nat.shiftRight_eq_div_pow, Nat.div_lt_iff_lt_mul (Nat.two_pow_pos b), ← pow_add,
      Nat.sub_add_cancel hb]
    exact h.lt

theorem Cache.flush (h : Cache total V done P cache rem) (hb : rem ≤ b) :
    V = P + cache % 2 ^ b * 2 ^ done := by
  rw [Nat.mod_eq_of_lt (h.lt.trans_le (Nat.pow_le_pow_right (by omega) hb))]
  exact h.value_eq

end Radix
