import Mathlib.Tactic
import Yacl.Lib.Loop

/-!
# Moving entries around in place

An in-place rearrangement of an array often works through disjoint groups of entries, and
moves the entries of every group by the same map `φ` of the indices. `reindexOn S φ A` is the
array `A` after the move of the group `S`. Moves of disjoint groups that `φ` maps to
themselves add up to one move of the union (`reindexOn_of_disjoint`), also in a loop over the
groups (`iterLoop_reindexOn`), and moves of one group compose (`reindexOn_comp`).

`exch w` is the move of Eklundh's matrix transposition: it exchanges bit `w` of the row index
with bit `w` of the column index. Doing so for every bit is the transposition
(`exchAll_eq_swap`).
-/

namespace Reindex

open Loop

variable {ι α σ : Type*}

open Classical in
/-- The array `A` after its entries in `S` were moved by `φ`. -/
noncomputable def reindexOn (S : ι → Prop) (φ : ι → ι) (A : ι → α) (x : ι) : α :=
  if S x then A (φ x) else A x

variable {S : ι → Prop} {φ : ι → ι} {A : ι → α}

theorem reindexOn_of_mem {x : ι} (h : S x) :
    reindexOn S φ A x = A (φ x) := if_pos h

theorem reindexOn_of_notMem {x : ι} (h : ¬S x) :
    reindexOn S φ A x = A x := if_neg h

theorem reindexOn_of_disjoint {T : ι → Prop} (hdisj : ∀ x, S x → ¬T x) (hT : ∀ x, T x → T (φ x)) :
    reindexOn T φ (reindexOn S φ A) = reindexOn (fun x => S x ∨ T x) φ A := by
  funext x
  have hnot : T x → ¬S (φ x) := fun hx h => hdisj _ h (hT x hx)
  by_cases hx : T x
  · simp only [reindexOn, hx, or_true, if_true, hnot hx, if_false]
  · by_cases hS : S x <;> simp [reindexOn, hx, hS]

theorem reindexOn_comp {ψ : ι → ι} (hS : ∀ x, S x → S (ψ x)) :
    reindexOn S ψ (reindexOn S φ A) = reindexOn S (φ ∘ ψ) A := by
  funext x
  by_cases hx : S x
  · rw [reindexOn_of_mem hx, reindexOn_of_mem hx, reindexOn_of_mem (hS x hx)]
    rfl
  · rw [reindexOn_of_notMem hx, reindexOn_of_notMem hx, reindexOn_of_notMem hx]

theorem reindexOn_congr {T : ι → Prop} (h : ∀ x, S x ↔ T x) :
    reindexOn S φ A = reindexOn T φ A := by
  rw [show S = T from funext fun x => propext (h x)]

/-- **A loop over disjoint groups** moves their union. The loop runs on a representation of
the array, `Rel s A`. -/
theorem iterLoop_reindexOn (Rel : σ → (ι → α) → Prop) {n : ℕ} {body : ℕ → σ → σ} {S : ℕ → ι → Prop}
    (hdisj : ∀ j < n, ∀ i < j, ∀ x, S i x → ¬S j x) (hclosed : ∀ i < n, ∀ x, S i x → S i (φ x))
    (hbody : ∀ i < n, ∀ s A, Rel s A → Rel (body i s) (reindexOn (S i) φ A)) {s : σ} (h : Rel s A) :
    Rel (iterLoop n body s) (reindexOn (fun x => ∃ i < n, S i x) φ A) := by
  induction n with
  | zero =>
    have hnone : reindexOn (fun x => ∃ i < 0, S i x) φ A = A :=
      funext fun x => reindexOn_of_notMem (by simp)
    rw [hnone]
    exact h
  | succ n ih =>
    have hlast := hbody n (by omega) _ _ (ih (fun j hj => hdisj j (by omega))
      (fun i hi => hclosed i (by omega)) fun i hi => hbody i (by omega))
    rw [reindexOn_of_disjoint (by
      rintro x ⟨i, hi, hx⟩
      exact hdisj n (by omega) i hi x hx) (hclosed n (by omega))] at hlast
    refine (reindexOn_congr fun x => ?_) ▸ hlast
    constructor
    · rintro (⟨i, hi, hx⟩ | hx)
      · exact ⟨i, by omega, hx⟩
      · exact ⟨n, by omega, hx⟩
    · rintro ⟨i, hi, hx⟩
      rcases Nat.lt_succ_iff_lt_or_eq.mp hi with hlt | rfl
      · exact .inl ⟨i, hlt, hx⟩
      · exact .inr hx

/-- The two slots that butterfly `a` of block `j` combines, with `m` butterflies a block. -/
def butterfly (slot : ℕ → ι → Prop) (m j a : ℕ) (x : ι) : Prop :=
  slot (a + 2 * m * j) x ∨ slot (a + m + 2 * m * j) x

/-- **A butterfly network.** The entries lie in slots; block `j` consists of the slots from
`2 * m * j` on and pairs every slot with the one `m` further. The loop over the blocks and, in
some order, over their pairs moves all the slots. -/
theorem iterLoop_butterfly (Rel : σ → (ι → α) → Prop) {n m : ℕ} (slot : ℕ → ι → Prop)
    (hslot : ∀ k k' x, slot k x → slot k' x → k = k') (ord : ℕ → ℕ)
    (hord : ∀ a < m, ord a < m ∧ ord (ord a) = a) (body : ℕ → ℕ → σ → σ)
    (hclosed : ∀ j < n, ∀ a < m, ∀ x, butterfly slot m j a x → butterfly slot m j a (φ x))
    (hbody : ∀ j < n, ∀ a < m, ∀ s A, Rel s A →
      Rel (body j a s) (reindexOn (butterfly slot m j a) φ A))
    {s : σ} (h : Rel s A) :
    Rel (iterLoop n (fun j s => iterLoop m (fun k s => body j (ord k) s) s) s)
      (reindexOn (fun x => ∃ k < n * (2 * m), slot k x) φ A) := by
  have hblock : ∀ j a x, a < m → butterfly slot m j a x → ∃ k, slot k x ∧ k / (2 * m) = j := by
    rintro j a x ha (hx | hx) <;> refine ⟨_, hx, ?_⟩ <;>
      rw [Nat.add_mul_div_left _ _ (by omega), Nat.div_eq_of_lt (by omega), Nat.zero_add]
  have hmove : Rel (iterLoop n (fun j s => iterLoop m (fun k s => body j (ord k) s) s) s)
      (reindexOn (fun x => ∃ j < n, ∃ a < m, butterfly slot m j (ord a) x) φ A) := by
    refine iterLoop_reindexOn Rel ?_ ?_ (fun j hj s A h => ?_) h
    · rintro j' - j hjj' x ⟨a, ha, hx⟩ ⟨a', ha', hx'⟩
      obtain ⟨k, hk, rfl⟩ := hblock j _ x (hord a ha).1 hx
      obtain ⟨k', hk', rfl⟩ := hblock j' _ x (hord a' ha').1 hx'
      rw [hslot k k' x hk hk'] at hjj'
      exact hjj'.ne rfl
    · rintro j hj x ⟨a, ha, hx⟩
      exact ⟨a, ha, hclosed j hj _ (hord a ha).1 x hx⟩
    · refine iterLoop_reindexOn Rel ?_ (fun a ha => hclosed j hj _ (hord a ha).1)
        (fun a ha s A h => hbody j hj _ (hord a ha).1 s A h) h
      intro a' ha' a haa' x hx hx'
      have hlt := (hord a (by omega)).1
      have hlt' := (hord a' ha').1
      have heq : ord a = ord a' := by
        rcases hx with hx | hx <;> rcases hx' with hx' | hx' <;>
          · have := hslot _ _ x hx hx'
            omega
      rw [← (hord a (by omega)).2, heq, (hord a' ha').2] at haa'
      exact haa'.ne rfl
  refine (reindexOn_congr fun x => ?_) ▸ hmove
  constructor
  · rintro ⟨j, hj, a, ha, hx⟩
    obtain ⟨k, hk, rfl⟩ := hblock j _ x (hord a ha).1 hx
    exact ⟨k, Nat.lt_mul_of_div_lt hj (by omega), hk⟩
  · rintro ⟨k, hk, hx⟩
    have hm : 0 < 2 * m := Nat.pos_of_ne_zero fun h => by simp [h] at hk
    have hmod : k % (2 * m) < 2 * m := Nat.mod_lt _ hm
    have hdm := Nat.mod_add_div k (2 * m)
    refine ⟨k / (2 * m), Nat.div_lt_of_lt_mul (by rwa [Nat.mul_comm] at hk), ?_⟩
    by_cases hlow : k % (2 * m) < m
    · refine ⟨ord (k % (2 * m)), (hord _ hlow).1, .inl ?_⟩
      rwa [(hord _ hlow).2, hdm]
    · have hlow' : k % (2 * m) - m < m := by omega
      refine ⟨ord (k % (2 * m) - m), (hord _ hlow').1, .inr ?_⟩
      rwa [(hord _ hlow').2, Nat.sub_add_cancel (by omega), hdm]

/-! ### Exchanging the bits of row and column indices -/

/-- Exchange bit `w` of the row index with bit `w` of the column index. -/
def exch (w : ℕ) (x : ℕ × ℕ) : ℕ × ℕ :=
  if x.1.testBit w = x.2.testBit w then x else (x.1 ^^^ 2 ^ w, x.2 ^^^ 2 ^ w)

variable {P : ℕ → Prop}

/-- A set of rows that is closed under flipping bit `w` is closed under `exch w`. -/
theorem exch_closed {w : ℕ} (hP : ∀ r, P r → P (r ^^^ 2 ^ w)) (x : ℕ × ℕ) (hx : P x.1) :
    P (exch w x).1 := by
  rw [exch]
  split
  · exact hx
  · exact hP _ hx

theorem exch_pair_closed {w r r' : ℕ} (h : r' = r ^^^ 2 ^ w) {x : ℕ × ℕ} (hx : x.1 = r ∨ x.1 = r') :
    (exch w x).1 = r ∨ (exch w x).1 = r' := by
  refine exch_closed (P := fun q => q = r ∨ q = r') ?_ x hx
  rintro q (rfl | rfl)
  · exact .inr h.symm
  · rw [h, Nat.xor_assoc, Nat.xor_self, Nat.xor_zero]
    exact .inl rfl

theorem testBit_exch_fst (w : ℕ) (x : ℕ × ℕ) (i : ℕ) :
    (exch w x).1.testBit i = if i = w then x.2.testBit i else x.1.testBit i := by
  rw [exch]
  by_cases hi : i = w
  · subst hi
    split
    · next h => rw [if_pos rfl, h]
    · next h =>
      cases hx : x.1.testBit i <;> cases hy : x.2.testBit i <;> simp_all
  · split
    · rfl
    · rw [Nat.testBit_xor, Nat.testBit_two_pow_of_ne (Ne.symm hi), Bool.xor_false]

theorem testBit_exch_snd (w : ℕ) (x : ℕ × ℕ) (i : ℕ) :
    (exch w x).2.testBit i = if i = w then x.1.testBit i else x.2.testBit i := by
  have h := testBit_exch_fst w x.swap i
  have hswap : exch w x.swap = (exch w x).swap := by
    rw [exch, exch]
    by_cases heq : x.1.testBit w = x.2.testBit w
    · rw [if_pos heq, if_pos (by exact heq.symm)]
    · rw [if_neg heq, if_neg (by exact fun h => heq h.symm)]
      rfl
  rwa [hswap] at h

/-- Exchange the bits of a list of positions, the last of them first. -/
def exchAll (ws : List ℕ) (x : ℕ × ℕ) : ℕ × ℕ := ws.foldr exch x

variable {ws : List ℕ}

theorem exchAll_closed (hP : ∀ w ∈ ws, ∀ r, P r → P (r ^^^ 2 ^ w)) (x : ℕ × ℕ) (hx : P x.1) :
    P (exchAll ws x).1 := by
  induction ws with
  | nil => exact hx
  | cons w ws ih =>
    exact exch_closed (hP w (by simp)) _ (ih fun v hv => hP v (List.mem_cons_of_mem w hv))

theorem testBit_exchAll (hws : ws.Nodup) (x : ℕ × ℕ) (i : ℕ) :
    (exchAll ws x).1.testBit i = (if i ∈ ws then x.2.testBit i else x.1.testBit i) ∧
      (exchAll ws x).2.testBit i = if i ∈ ws then x.1.testBit i else x.2.testBit i := by
  induction ws with
  | nil => simp [exchAll]
  | cons w ws ih =>
    obtain ⟨hw, hnodup⟩ := List.nodup_cons.mp hws
    obtain ⟨h1, h2⟩ := ih hnodup
    have hcons : exchAll (w :: ws) x = exch w (exchAll ws x) := rfl
    rw [hcons, testBit_exch_fst, testBit_exch_snd, h1, h2]
    by_cases hi : i = w
    · subst hi
      simp [hw]
    · simp [hi]

theorem reindexOn_exchAll_nil (S : ℕ × ℕ → Prop) (A : ℕ × ℕ → α) :
    reindexOn S (exchAll []) A = A := by
  funext x
  by_cases hx : S x <;> simp [reindexOn, exchAll]

theorem reindexOn_exchAll (vs : List ℕ) (hP : ∀ w ∈ vs, ∀ r, P r → P (r ^^^ 2 ^ w)) (ws : List ℕ)
    (A : ℕ × ℕ → α) :
    reindexOn (fun x => P x.1) (exchAll vs) (reindexOn (fun x => P x.1) (exchAll ws) A) =
      reindexOn (fun x => P x.1) (exchAll (ws ++ vs)) A := by
  rw [reindexOn_comp fun x => exchAll_closed hP x]
  congr 1
  funext x
  exact (List.foldr_append ..).symm

/-- **Exchanging all bits is the transposition.** -/
theorem exchAll_eq_swap {m : ℕ} (hws : ws.Nodup) (hall : ∀ i < m, i ∈ ws) {r c : ℕ} (hr : r < 2 ^ m)
    (hc : c < 2 ^ m) : exchAll ws (r, c) = (c, r) := by
  have hhigh : ∀ i, i ∉ ws → r.testBit i = c.testBit i := by
    intro i hi
    have hm : m ≤ i := Nat.le_of_not_lt fun h => hi (hall i h)
    have hpow : 2 ^ m ≤ 2 ^ i := Nat.pow_le_pow_right (by omega) hm
    rw [Nat.testBit_lt_two_pow (by omega), Nat.testBit_lt_two_pow (by omega)]
  refine Prod.ext (Nat.eq_of_testBit_eq fun i => ?_) (Nat.eq_of_testBit_eq fun i => ?_)
  · rw [(testBit_exchAll hws _ i).1]
    split
    · rfl
    · next hi => exact hhigh i hi
  · rw [(testBit_exchAll hws _ i).2]
    split
    · rfl
    · next hi => exact (hhigh i hi).symm

end Reindex
