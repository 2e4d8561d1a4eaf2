import Yacl.Lib.XorSum

/-!
# Punctured trees

The levels of a binary tree of words are laid out as arrays: the `m` nodes of a level are
followed by `2 * m` nodes on the next one, all left children first (`double`). The node above
leaf `idx` on level `l` is then node `idx % 2 ^ l`.

A **punctured** tree has the labels of a tree everywhere except above one leaf. It can be grown
from the tree's labels and, for each level, one word: the sum of the children on the side that
the path to the leaf does not take. The child next to the path is the sum minus the other
children (`punctured_eq`).

In a **half tree** a right child is the sum of its parent and its left sibling, so that every
level adds up to the same word `delta`. One word for each level, whether the path goes left or
right, then gives a tree that differs from it by `delta` along the path (`halfPunctured_eq`).
-/

open XorSum

namespace PuncturedTree

/-- The children of the `m` nodes of a level, first all left ones. -/
def double {α : Type*} (L R : α → α) (m : ℕ) (a : ℕ → α) (i : ℕ) : α :=
  if i < m then L (a i) else R (a (i - m))

theorem mod_two_pow_succ_eq_ite (idx l : ℕ) :
    idx % 2 ^ (l + 1) = if idx.testBit l then idx % 2 ^ l + 2 ^ l else idx % 2 ^ l := by
  rw [Nat.mod_pow_succ, Nat.testBit_eq_decide_div_mod_eq]
  rcases Nat.mod_two_eq_zero_or_one (idx / 2 ^ l) with h | h <;> simp [h]

theorem xor_two_pow_mod (idx l : ℕ) :
    (idx ^^^ 2 ^ l) % 2 ^ (l + 1) = if idx.testBit l then idx % 2 ^ l else idx % 2 ^ l + 2 ^ l := by
  have hlow : (idx ^^^ 2 ^ l) % 2 ^ l = idx % 2 ^ l := by
    rw [Nat.xor_mod_two_pow, Nat.mod_self, Nat.xor_zero]
  rw [mod_two_pow_succ_eq_ite, hlow, Nat.testBit_xor, Nat.testBit_two_pow_self]
  cases idx.testBit l <;> rfl

theorem mod_two_pow_or_and (idx l : ℕ) :
    idx % 2 ^ l ||| (idx &&& 2 ^ l) = idx % 2 ^ (l + 1) := by
  refine Nat.eq_of_testBit_eq fun i => ?_
  rcases Nat.lt_trichotomy i l with h | rfl | h
  · simp [h, h.ne', Nat.lt_succ_of_lt h]
  · simp
  · simp [h.ne, show ¬i < l by omega, show ¬i < l + 1 by omega]

theorem mod_eq_iff {m p i : ℕ} (hp : p < m) (hi : i < 2 * m) : i % m = p ↔ i = p ∨ i = p + m := by
  rcases Nat.lt_or_ge i m with h | h
  · rw [Nat.mod_eq_of_lt h]
    omega
  · rw [Nat.mod_eq_sub_mod h, Nat.mod_eq_of_lt (by omega)]
    omega

variable {w : ℕ}

/-! ### Trees with a generator for each side -/

section Tree

variable (L R : BitVec w → BitVec w)

/-- The labels on level `l` of the tree with root `seed`. -/
def node (seed : BitVec w) : ℕ → ℕ → BitVec w
  | 0 => fun _ => seed
  | l + 1 => double L R (2 ^ l) (node seed l)

/-- The sum of the children of a level, the left or the right ones. -/
def sideSum (right : Bool) (m : ℕ) (a : ℕ → BitVec w) : BitVec w :=
  xorSum m fun j => if right then R (a j) else L (a j)

/-- The children without those of node `p`. -/
def sideSumExcept (right : Bool) (p m : ℕ) (a : ℕ → BitVec w) : BitVec w :=
  xorSum m fun j => if j = p then 0 else if right then R (a j) else L (a j)

/-- The level below level `l` of the punctured tree: the path has no label, and the node next to it
is what the word `v` leaves over. -/
def puncturedNext (v : BitVec w) (idx l : ℕ) (a : ℕ → BitVec w) (i : ℕ) : BitVec w :=
  if i = idx % 2 ^ (l + 1) then 0
  else if i % 2 ^ l = idx % 2 ^ l then
    v ^^^ sideSumExcept L R (!idx.testBit l) (idx % 2 ^ l) (2 ^ l) a
  else double L R (2 ^ l) a i

/-- The labels of the tree that is grown from the words `v`, without the path to leaf `idx`. -/
def punctured (v : ℕ → BitVec w) (idx : ℕ) : ℕ → ℕ → BitVec w
  | 0 => fun _ => 0
  | l + 1 => puncturedNext L R (v l) idx l (punctured v idx l)

theorem sideSum_xor_sideSumExcept (right : Bool) {p m : ℕ} (hp : p < m) {a b : ℕ → BitVec w}
    (h : ∀ i < m, i ≠ p → b i = a i) :
    sideSum L R right m a ^^^ sideSumExcept L R right p m b =
      if right then R (a p) else L (a p) := by
  rw [sideSum, sideSumExcept, xorSum_xor_xorSum hp fun i hi hip => by rw [if_neg hip, h i hi hip]]
  simp

/-- **The punctured tree** has the labels of the tree everywhere except on the path. -/
theorem punctured_eq {seed : BitVec w} {v : ℕ → BitVec w} {idx h : ℕ}
    (hv : ∀ l < h, v l = sideSum L R (!idx.testBit l) (2 ^ l) (node L R seed l)) {l : ℕ}
    (hl : l ≤ h) {i : ℕ} (hi : i < 2 ^ l) :
    punctured L R v idx l i = if i = idx % 2 ^ l then 0 else node L R seed l i := by
  induction l generalizing i with
  | zero => rw [if_pos (by omega)]; rfl
  | succ l ih =>
    have hp : idx % 2 ^ l < 2 ^ l := Nat.mod_lt _ (Nat.two_pow_pos l)
    have hi2 : i < 2 * 2 ^ l := by rw [Nat.pow_succ] at hi; omega
    rw [punctured, puncturedNext]
    by_cases hpath : i = idx % 2 ^ (l + 1)
    · rw [if_pos hpath, if_pos hpath]
    rw [if_neg hpath, if_neg hpath, node]
    by_cases hsib : i % 2 ^ l = idx % 2 ^ l
    · -- the sibling of the path is what the sum of its side leaves over
      rw [hv l (by omega),
        sideSum_xor_sideSumExcept L R _ hp fun j hj hjp => (ih (by omega) hj).trans (if_neg hjp)]
      rw [mod_two_pow_succ_eq_ite] at hpath
      rcases (mod_eq_iff hp hi2).mp hsib with rfl | rfl
      · cases hbit : idx.testBit l with
        | false => simp [hbit] at hpath
        | true => simp [double, hp]
      · cases hbit : idx.testBit l with
        | false => simp [double]
        | true => simp [hbit] at hpath
    · rw [if_neg hsib]
      rw [mod_eq_iff hp hi2, not_or] at hsib
      rw [double, double]
      split
      · next hlt => rw [ih (by omega) hlt, if_neg hsib.1]
      · next hge => rw [ih (by omega) (by omega), if_neg (by omega)]

end Tree

/-! ### Half trees -/

section HalfTree

variable (L : BitVec w → BitVec w)

/-- The next level of a half tree. -/
def halfDouble (m : ℕ) (a : ℕ → BitVec w) : ℕ → BitVec w := double L (fun x => x ^^^ L x) m a

/-- The labels on level `l + 1` of the half tree, from a level of two nodes that differ by
`delta`. -/
def halfNode (seed delta : BitVec w) : ℕ → ℕ → BitVec w
  | 0 => fun i => if i = 0 then seed else seed ^^^ delta
  | l + 1 => halfDouble L (2 ^ (l + 1)) (halfNode seed delta l)

/-- The sum of the left children of level `l + 1`. -/
def halfLeft (seed delta : BitVec w) : ℕ → BitVec w
  | 0 => seed
  | l + 1 => xorSum (2 ^ (l + 1)) fun j => L (halfNode L seed delta l j)

/-- The level below level `l + 1` of the punctured half tree: both children of the path node are
corrected by the same word. -/
def halfPuncturedNext (v : BitVec w) (idx l : ℕ) (a : ℕ → BitVec w) (i : ℕ) : BitVec w :=
  halfDouble L (2 ^ (l + 1)) a i ^^^
    if i % 2 ^ (l + 1) = idx % 2 ^ (l + 1) then v ^^^ xorSum (2 ^ (l + 1)) fun j => L (a j) else 0

/-- The labels of the half tree that is grown from the words `v`, for leaf `idx`. -/
def halfPunctured (v : ℕ → BitVec w) (idx : ℕ) : ℕ → ℕ → BitVec w
  | 0 => fun _ => v 0
  | l + 1 => halfPuncturedNext L (v (l + 1)) idx l (halfPunctured v idx l)

theorem halfNode_of_closed {P : BitVec w → Prop} (hL : ∀ x, P (L x))
    (hxor : ∀ x y, P x → P y → P (x ^^^ y)) {seed delta : BitVec w} (hseed : P seed)
    (hdelta : P delta) (l i : ℕ) : P (halfNode L seed delta l i) := by
  induction l generalizing i with
  | zero =>
    rw [halfNode]
    dsimp only
    split
    · exact hseed
    · exact hxor _ _ hseed hdelta
  | succ l ih =>
    rw [halfNode, halfDouble, double]
    split
    · exact hL _
    · exact hxor _ _ (ih _) (hL _)

theorem xor_xor_cancel (a b c : BitVec w) : a ^^^ (b ^^^ a ^^^ c) = b ^^^ c := by
  grind

theorem xor_xor_comm (a b c d : BitVec w) : a ^^^ b ^^^ (c ^^^ d) = a ^^^ c ^^^ (b ^^^ d) := by
  ac_rfl

/-- **The punctured half tree** differs from the half tree by `delta` along the path, and
nowhere else. -/
theorem halfPunctured_eq {seed delta : BitVec w} {v : ℕ → BitVec w} {idx h : ℕ}
    (hv : ∀ l < h, v l = halfLeft L seed delta l ^^^ if idx.testBit l then 0 else delta) {l : ℕ}
    (hl : l < h) {i : ℕ} (hi : i < 2 ^ (l + 1)) :
    halfPunctured L v idx l i =
      halfNode L seed delta l i ^^^ if i = idx % 2 ^ (l + 1) then delta else 0 := by
  induction l generalizing i with
  | zero =>
    rw [halfPunctured, hv 0 hl, halfLeft, halfNode, mod_two_pow_succ_eq_ite]
    rcases (show i = 0 ∨ i = 1 by omega) with rfl | rfl <;> cases idx.testBit 0 <;>
      simp [Nat.mod_one]
  | succ l ih =>
    have hp : idx % 2 ^ (l + 1) < 2 ^ (l + 1) := Nat.mod_lt _ (Nat.two_pow_pos _)
    have hi2 : i < 2 * 2 ^ (l + 1) := by rw [Nat.pow_succ] at hi; omega
    have hagree : ∀ j < 2 ^ (l + 1), j ≠ idx % 2 ^ (l + 1) →
        halfPunctured L v idx l j = halfNode L seed delta l j := by
      intro j hj hjp
      simpa [hjp] using ih (by omega) hj
    have hpath : halfPunctured L v idx l (idx % 2 ^ (l + 1)) =
        halfNode L seed delta l (idx % 2 ^ (l + 1)) ^^^ delta := by
      simpa using ih (by omega) hp
    rw [halfPunctured, halfPuncturedNext, halfNode, mod_two_pow_succ_eq_ite idx (l + 1)]
    by_cases hsib : i % 2 ^ (l + 1) = idx % 2 ^ (l + 1)
    · -- the sums of the left children differ by the left children of the path node
      have hsum := xorSum_xor_xorSum hp
        (g := fun j => L (halfPunctured L v idx l j)) fun j hj hjp => by rw [hagree j hj hjp]
      have hswap : ∀ a b c : BitVec w, a ^^^ b ^^^ c = a ^^^ c ^^^ b := fun a b c => by ac_rfl
      rw [if_pos hsib, hv (l + 1) hl, halfLeft, hswap, hsum, halfDouble, halfDouble, double, double]
      rcases (mod_eq_iff hp hi2).mp hsib with rfl | rfl
      · rw [if_pos hp, if_pos hp, xor_xor_cancel]
        cases idx.testBit (l + 1) <;> simp
      · have hge : ¬idx % 2 ^ (l + 1) + 2 ^ (l + 1) < 2 ^ (l + 1) := by omega
        rw [if_neg hge, Nat.add_sub_cancel, BitVec.xor_assoc, xor_xor_cancel, hpath, xor_xor_comm]
        cases idx.testBit (l + 1) <;> simp
    · rw [if_neg hsib]
      rw [mod_eq_iff hp hi2, not_or] at hsib
      rw [if_neg (by split <;> omega), halfDouble, halfDouble, double, double]
      split
      · next hlt => rw [hagree i hlt hsib.1]
      · next hge => rw [hagree (i - 2 ^ (l + 1)) (by omega) (by omega)]

end HalfTree

end PuncturedTree
