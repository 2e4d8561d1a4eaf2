import Mathlib.Tactic

/-!
# Counting intervals

A list of half open intervals of integers, each given by its start and its length. If no two of them
share an element, then they have as many elements as their lengths add up to (`card_cover`). So
disjoint intervals inside of `[0, n)` whose lengths add up to `n` fill it
(`fills_of_pairwise_disjoint`).
-/

namespace Intervals

/-- The elements of an interval. -/
noncomputable def elems (c : ℤ × ℕ) : Finset ℤ := Finset.Ico c.1 (c.1 + c.2)

/-- The elements of a list of intervals. -/
noncomputable def cover (l : List (ℤ × ℕ)) : Finset ℤ := l.foldr (fun c s => elems c ∪ s) ∅

/-- The sum of the lengths. -/
def total (l : List (ℤ × ℕ)) : ℕ := (l.map Prod.snd).sum

@[simp]
theorem mem_elems {c : ℤ × ℕ} {x : ℤ} : x ∈ elems c ↔ c.1 ≤ x ∧ x < c.1 + c.2 := Finset.mem_Ico

@[simp]
theorem card_elems (c : ℤ × ℕ) : (elems c).card = c.2 := by simp [elems]

theorem mem_cover {l : List (ℤ × ℕ)} {x : ℤ} : x ∈ cover l ↔ ∃ c ∈ l, x ∈ elems c := by
  induction l with
  | nil => simp [cover]
  | cons c l ih =>
    have hcons : cover (c :: l) = elems c ∪ cover l := rfl
    rw [hcons, Finset.mem_union, ih]
    simp

@[simp]
theorem total_cons (c : ℤ × ℕ) (l : List (ℤ × ℕ)) : total (c :: l) = c.2 + total l := by
  simp [total]

/-- **Counting.** Disjoint intervals have as many elements as their lengths add up to. -/
theorem card_cover {l : List (ℤ × ℕ)}
    (h : l.Pairwise fun c c' => Disjoint (elems c) (elems c')) : (cover l).card = total l := by
  induction h with
  | nil => rfl
  | @cons c l hc _ ih =>
    have hdisj : Disjoint (elems c) (cover l) := by
      rw [Finset.disjoint_left]
      intro x hx hcov
      obtain ⟨c', hc', hx'⟩ := mem_cover.mp hcov
      exact Finset.disjoint_left.mp (hc c' hc') hx hx'
    rw [total_cons, ← ih, ← card_elems c]
    exact Finset.card_union_of_disjoint hdisj

/-- **Filling an interval.** Disjoint intervals inside of `[0, n)` whose lengths add up to `n` leave
no element of it out. -/
theorem fills_of_pairwise_disjoint {l : List (ℤ × ℕ)} {n : ℕ}
    (hfit : ∀ c ∈ l, elems c ⊆ Finset.Ico 0 (n : ℤ)) (htotal : total l = n)
    (h : l.Pairwise fun c c' => Disjoint (elems c) (elems c')) {x : ℤ}
    (hx : x ∈ Finset.Ico 0 (n : ℤ)) : ∃ c ∈ l, x ∈ elems c := by
  have hsub : cover l ⊆ Finset.Ico 0 (n : ℤ) := by
    intro y hy
    obtain ⟨c, hc, hyc⟩ := mem_cover.mp hy
    exact hfit c hc hyc
  -- there are as many elements in the intervals as in `[0, n)`
  have hcard : (Finset.Ico 0 (n : ℤ)).card ≤ (cover l).card := by
    rw [card_cover h, htotal]
    simp
  rw [← Finset.eq_of_subset_of_card_le hsub hcard] at hx
  exact mem_cover.mp hx

end Intervals
