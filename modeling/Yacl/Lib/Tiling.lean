import Mathlib.Data.List.Basic

/-!
# Tilings

A list of pieces of the natural numbers **tiles** `[lo, hi)` if every piece begins where the one
before it has ended. Tilings can be put one after the other (`Tiles.append`, `tiles_flatMap`), and
every number in `[lo, hi)` is in exactly one piece of a tiling (`Tiles.countP_contains`), so that
its pieces are pairwise disjoint (`Tiles.pairwise_disjoint`).
-/

namespace Tiling

/-- A piece, given by its start and its length. -/
structure Piece where
  /-- The start. -/
  off : ℕ
  /-- The length. -/
  len : ℕ
deriving DecidableEq, Repr, Inhabited

/-- A number is in a piece. -/
def Piece.contains (p : Piece) (i : ℕ) : Bool := p.off ≤ i && i < p.off + p.len

/-- No number is in both pieces. -/
def Piece.Disjoint (p q : Piece) : Prop := ∀ i, ¬(p.contains i = true ∧ q.contains i = true)

variable {p : Piece}

theorem Piece.disjoint_of_le {q : Piece} (h : p.off + p.len ≤ q.off) : p.Disjoint q := by
  intro i
  simp only [contains, Bool.and_eq_true, decide_eq_true_eq]
  omega

/-- The pieces tile `[lo, hi)`. -/
def Tiles : (lo : ℕ) → List Piece → (hi : ℕ) → Prop
  | lo, [], hi => lo = hi
  | lo, p :: l, hi => p.off = lo ∧ Tiles (lo + p.len) l hi

theorem tiles_nil (lo : ℕ) : Tiles lo [] lo := rfl

theorem tiles_singleton (lo len : ℕ) : Tiles lo [⟨lo, len⟩] (lo + len) := ⟨rfl, rfl⟩

variable {lo hi : ℕ} {l : List Piece}

theorem Tiles.le (h : Tiles lo l hi) : lo ≤ hi := by
  induction l generalizing lo with
  | nil => exact Nat.le_of_eq h
  | cons p l ih => exact Nat.le_trans (Nat.le_add_right lo p.len) (ih h.2)

theorem Tiles.le_off (h : Tiles lo l hi) (hp : p ∈ l) : lo ≤ p.off := by
  induction l generalizing lo with
  | nil => contradiction
  | cons q l ih =>
    rcases List.mem_cons.1 hp with rfl | hp
    · exact Nat.le_of_eq h.1.symm
    · exact Nat.le_trans (Nat.le_add_right lo q.len) (ih h.2 hp)

theorem Tiles.off_add_len_le (h : Tiles lo l hi) (hp : p ∈ l) : p.off + p.len ≤ hi := by
  induction l generalizing lo with
  | nil => contradiction
  | cons q l ih =>
    rcases List.mem_cons.1 hp with rfl | hp
    · exact Nat.le_trans (Nat.le_of_eq (congrArg (· + p.len) h.1)) h.2.le
    · exact ih h.2 hp

/-- **At most once.** The pieces of a tiling are pairwise disjoint. -/
theorem Tiles.pairwise_disjoint (h : Tiles lo l hi) : l.Pairwise Piece.Disjoint := by
  induction l generalizing lo with
  | nil => exact .nil
  | cons p l ih =>
    refine .cons (fun q hq => Piece.disjoint_of_le ?_) (ih h.2)
    rw [h.1]
    exact h.2.le_off hq

theorem Tiles.append {mid : ℕ} {l' : List Piece} (h : Tiles lo l mid) (h' : Tiles mid l' hi) :
    Tiles lo (l ++ l') hi := by
  induction l generalizing lo with
  | nil =>
    have hlo : lo = mid := h
    rwa [hlo]
  | cons p l ih => exact ⟨h.1, ih h.2⟩

/-- **The tiling of a loop** whose rounds tile consecutive pieces. -/
theorem tiles_flatMap {n : ℕ} {f : ℕ → ℕ} {g : ℕ → List Piece}
    (h : ∀ i < n, Tiles (f i) (g i) (f (i + 1))) :
    Tiles (f 0) ((List.range n).flatMap g) (f n) := by
  induction n with
  | zero => exact tiles_nil _
  | succ n ih =>
    rw [List.range_succ, List.flatMap_append, List.flatMap_singleton]
    exact (ih fun i hi => h i (by omega)).append (h n (by omega))

theorem tiles_map_range (lo len n : ℕ) :
    Tiles lo ((List.range n).map fun i => ⟨lo + len * i, len⟩) (lo + len * n) := by
  have h := tiles_flatMap (n := n)
    (g := fun i => [⟨lo + len * i, len⟩]) fun i _ => ⟨rfl, by
      dsimp only [Tiles]
      rw [Nat.mul_succ, Nat.add_assoc]⟩
  rwa [← List.map_eq_flatMap, Nat.mul_zero, Nat.add_zero] at h

/-- **Exactly once.** A tiling has one piece for every number from `lo` up to `hi`, and none for the
others. -/
theorem Tiles.countP_contains (h : Tiles lo l hi) (i : ℕ) :
    (l.countP fun p => p.contains i) = if lo ≤ i ∧ i < hi then 1 else 0 := by
  induction l generalizing lo with
  | nil =>
    have hlo : lo = hi := h
    rw [List.countP_nil, if_neg (by omega)]
  | cons p l ih =>
    obtain ⟨hoff, htail⟩ := h
    have hle := htail.le
    rw [List.countP_cons, ih htail]
    by_cases hp : p.contains i = true
    · have hin : p.off ≤ i ∧ i < p.off + p.len := by simpa [Piece.contains] using hp
      rw [if_neg (by omega), if_pos hp, if_pos (by omega)]
    · have hout : ¬(p.off ≤ i ∧ i < p.off + p.len) := by simpa [Piece.contains] using hp
      rw [if_neg hp]
      exact if_congr (by omega) rfl rfl

end Tiling
