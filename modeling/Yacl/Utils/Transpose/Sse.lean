import Yacl.Utils.Transpose.Eklundh

/-!
# Bit matrix transposition: SSE

The model of `SseTranspose128` of `yacl/utils/matrix_utils.cc`, which moves squares of `16` by
`16` bits. A square is loaded as two blocks, one for each of its byte columns; shifting the
blocks left brings their bit columns one after the other into the sign bits of the bytes,
where `movemask_epi8` collects them into rows. The squares off the diagonal are exchanged in
pairs, so that the whole is the move of all entries by `Prod.swap`
(`sseTranspose128_represents`).
-/

open Bits Loop Reindex

namespace Yacl

/-- `_mm_movemask_epi8`: the sign bits of the sixteen bytes. -/
def movemaskEpi8 (b : Uint128) : BitVec 16 :=
  bitsOf 16 fun l => b.getLsbD (8 * l + 7)

/-- `_mm_slli_epi64`: the two halves are shifted left by `k`. -/
def slliEpi64 (b : Uint128) (k : ℕ) : Uint128 :=
  bitsOf 128 fun i => decide (k ≤ i % 64) && b.getLsbD (i - k)

/-- Write lane `y` of the `std::array<uint16_t, 8>` view of a block. -/
def setLane16 (b : Uint128) (y : ℕ) (v : BitVec 16) : Uint128 :=
  bitsOf 128 fun i => if i / 16 = y then v.getLsbD (i % 16) else b.getLsbD i

/-- `sse_loadSubSquare`: byte `l` of the two blocks is byte `2 * y`, and byte `2 * y + 1`, of
row `16 * x + l`. -/
def sseLoadSubSquare (m : Matrix128) (x y : ℕ) : Uint128 × Uint128 :=
  (bitsOf 128 fun i => (m (16 * x + i / 8)).getLsbD (8 * (2 * y) + i % 8),
   bitsOf 128 fun i => (m (16 * x + i / 8)).getLsbD (8 * (2 * y + 1) + i % 8))

/-- The body of the loop of `sse_transposeSubSquare`; the state is the matrix and the two
blocks. -/
def sseTransposeSubSquareStep (x y j : ℕ) (s : Matrix128 × Uint128 × Uint128) :
    Matrix128 × Uint128 × Uint128 :=
  let (out, in0, in1) := s
  let r0 := 16 * x + 7 - j
  let out := Function.update out r0 (setLane16 (out r0) y (movemaskEpi8 in0))
  let r1 := 16 * x + 15 - j
  let out := Function.update out r1 (setLane16 (out r1) y (movemaskEpi8 in1))
  (out, slliEpi64 in0 1, slliEpi64 in1 1)

/-- `sse_transposeSubSquare`. -/
def sseTransposeSubSquare (out : Matrix128) (sq : Uint128 × Uint128) (x y : ℕ) : Matrix128 :=
  (iterLoop 8 (sseTransposeSubSquareStep x y) (out, sq)).1

/-- `SseTranspose128`. -/
def sseTranspose128 (inout : Matrix128) : Matrix128 :=
  iterLoop 8 (fun j mtx =>
    let a := sseLoadSubSquare mtx j j
    let mtx := sseTransposeSubSquare mtx a j j
    iterLoop j (fun k mtx =>
      let a := sseLoadSubSquare mtx k j
      let b := sseLoadSubSquare mtx j k
      let mtx := sseTransposeSubSquare mtx a j k
      sseTransposeSubSquare mtx b k j) mtx) inout

/-! ### One square -/

variable {j : ℕ}

/-- Shifting the bytes left, bit by bit, for as long as no bit leaves its byte. -/
theorem getLsbD_slliEpi64 {b₀ b : Uint128}
    (hb : ∀ l < 16, ∀ t < 8, j ≤ t → b.getLsbD (8 * l + t) = b₀.getLsbD (8 * l + (t - j))) :
    ∀ l < 16, ∀ t < 8, j + 1 ≤ t →
      (slliEpi64 b 1).getLsbD (8 * l + t) = b₀.getLsbD (8 * l + (t - (j + 1))) := by
  intro l hl t ht hjt
  rw [slliEpi64, getLsbD_bitsOf, decide_eq_true (by omega), decide_eq_true (by omega),
    Bool.true_and, Bool.true_and, show 8 * l + t - 1 = 8 * l + (t - 1) by omega,
    hb l hl (t - 1) (by omega) (by omega), show t - 1 - j = t - (j + 1) by omega]

variable {c : ℕ}

theorem getLsbD_setLane16 (b : Uint128) (y : ℕ) (v : BitVec 16) (hc : c < 128) :
    (setLane16 b y v).getLsbD c = if c / 16 = y then v.getLsbD (c % 16) else b.getLsbD c := by
  rw [setLane16, getLsbD_bitsOf, decide_eq_true hc, Bool.true_and]

theorem getLsbD_movemaskEpi8 (b : Uint128) {l : ℕ} (hl : l < 16) :
    (movemaskEpi8 b).getLsbD l = b.getLsbD (8 * l + 7) := by
  rw [movemaskEpi8, getLsbD_bitsOf, decide_eq_true hl, Bool.true_and]

/-- Bit `t` of byte `l` of the blocks of a square, with the byte columns side by side. -/
def squareBit (sq : Uint128 × Uint128) (l t : ℕ) : Bool :=
  if t < 8 then sq.1.getLsbD (8 * l + t) else sq.2.getLsbD (8 * l + (t - 8))

/-- After `j` steps of `sse_transposeSubSquare`, the upper `j` rows of both halves of the square
are written, and the blocks are shifted left by `j`. -/
structure SquareInv (out : Matrix128) (sq : Uint128 × Uint128) (x y j : ℕ)
    (s : Matrix128 × Uint128 × Uint128) : Prop where
  rows : ∀ r c, c < 128 → (s.1 r).getLsbD c =
    if r / 16 = x ∧ c / 16 = y ∧ 8 ≤ r % 8 + j then squareBit sq (c % 16) (r % 16)
    else (out r).getLsbD c
  shift0 : ∀ l < 16, ∀ t < 8, j ≤ t →
    s.2.1.getLsbD (8 * l + t) = sq.1.getLsbD (8 * l + (t - j))
  shift1 : ∀ l < 16, ∀ t < 8, j ≤ t →
    s.2.2.getLsbD (8 * l + t) = sq.2.getLsbD (8 * l + (t - j))

variable {x y : ℕ}

theorem SquareInv.step {out : Matrix128} {sq : Uint128 × Uint128}
    {s : Matrix128 × Uint128 × Uint128} (hj : j < 8) (h : SquareInv out sq x y j s) :
    SquareInv out sq x y (j + 1) (sseTransposeSubSquareStep x y j s) := by
  obtain ⟨hm, h0, h1⟩ := h
  refine ⟨fun r c hc => ?_, getLsbD_slliEpi64 h0, getLsbD_slliEpi64 h1⟩
  have hl : c % 16 < 16 := Nat.mod_lt _ (by omega)
  dsimp only [sseTransposeSubSquareStep]
  by_cases hr1 : r = 16 * x + 15 - j
  · rw [hr1, Function.update_self, getLsbD_setLane16 _ _ _ hc, getLsbD_movemaskEpi8 _ hl,
      Function.update_of_ne (by omega), hm _ _ hc, h1 _ hl 7 (by omega) (by omega), squareBit,
      if_neg (by omega : ¬(16 * x + 15 - j) % 16 < 8),
      show (16 * x + 15 - j) % 16 - 8 = 7 - j by omega]
    by_cases hy : c / 16 = y
    · rw [if_pos hy, if_pos (by omega)]
    · rw [if_neg hy, if_neg (by omega), if_neg (by omega)]
  by_cases hr0 : r = 16 * x + 7 - j
  · rw [Function.update_of_ne hr1, hr0, Function.update_self, getLsbD_setLane16 _ _ _ hc,
      getLsbD_movemaskEpi8 _ hl, hm _ _ hc, h0 _ hl 7 (by omega) (by omega), squareBit,
      if_pos (by omega : (16 * x + 7 - j) % 16 < 8),
      show (16 * x + 7 - j) % 16 = 7 - j by omega]
    by_cases hy : c / 16 = y
    · rw [if_pos hy, if_pos (by omega)]
    · rw [if_neg hy, if_neg (by omega), if_neg (by omega)]
  · rw [Function.update_of_ne hr1, Function.update_of_ne hr0, hm _ _ hc]
    exact if_congr (by omega) rfl rfl

/-- **Writing a square.** Row `t` of the square at `(x, y)` becomes bit column `t` of the two
blocks, and nothing else changes. -/
theorem sseTransposeSubSquare_getLsbD (out : Matrix128) (sq : Uint128 × Uint128) (x y r c : ℕ)
    (hc : c < 128) :
    (sseTransposeSubSquare out sq x y r).getLsbD c =
      if r / 16 = x ∧ c / 16 = y then squareBit sq (c % 16) (r % 16) else (out r).getLsbD c := by
  have hstart : SquareInv out sq x y 0 (out, sq) :=
    ⟨fun r c _ => by rw [if_neg (by omega)], fun l _ t _ _ => rfl, fun l _ t _ _ => rfl⟩
  have hloop := iterLoop_inv (SquareInv out sq x y) hstart fun j hj s h => h.step hj
  rw [sseTransposeSubSquare, hloop.rows r c hc]
  exact if_congr (by omega) rfl rfl

variable {m : Matrix128} {A : ℕ × ℕ → Bool}

theorem squareBit_sseLoadSubSquare (hA : Represents m A) {l t : ℕ} (hy : y < 8) (hl : l < 16)
    (ht : t < 16) : squareBit (sseLoadSubSquare m x y) l t = A (16 * x + l, 16 * y + t) := by
  rw [squareBit, sseLoadSubSquare]
  split
  · rw [getLsbD_bitsOf, decide_eq_true (by omega), Bool.true_and, hA _ _ (by omega)]
    congr 2 <;> omega
  · rw [getLsbD_bitsOf, decide_eq_true (by omega), Bool.true_and, hA _ _ (by omega)]
    congr 2 <;> omega

/-! ### All squares -/

theorem swap_of_div_eq {r : ℕ} (hr : r / 16 = x) (hc : c / 16 = y) :
    (r, c).swap = (16 * y + c % 16, 16 * x + r % 16) := by
  rw [Prod.swap_prod_mk, ← hr, ← hc, Nat.div_add_mod, Nat.div_add_mod]

/-- **A pair of squares** is exchanged and transposed. -/
theorem sseExchange_represents (hA : Represents m A) {k : ℕ} (hj : j < 8) (hk : k < 8) :
    Represents (sseTransposeSubSquare
        (sseTransposeSubSquare m (sseLoadSubSquare m k j) j k) (sseLoadSubSquare m j k) k j)
      (reindexOn (fun x => (x.1 / 16 = j ∧ x.2 / 16 = k) ∨ (x.1 / 16 = k ∧ x.2 / 16 = j))
        Prod.swap A) := by
  intro r c hc
  have hr : r % 16 < 16 := Nat.mod_lt _ (by omega)
  have hl : c % 16 < 16 := Nat.mod_lt _ (by omega)
  rw [sseTransposeSubSquare_getLsbD _ _ _ _ _ _ hc, sseTransposeSubSquare_getLsbD _ _ _ _ _ _ hc,
    squareBit_sseLoadSubSquare hA hk hl hr, squareBit_sseLoadSubSquare hA hj hl hr, hA _ _ hc]
  by_cases h1 : r / 16 = k ∧ c / 16 = j
  · rw [if_pos h1, reindexOn_of_mem (by exact .inr h1), swap_of_div_eq h1.1 h1.2]
  by_cases h2 : r / 16 = j ∧ c / 16 = k
  · rw [if_neg h1, if_pos h2, reindexOn_of_mem (by exact .inl h2), swap_of_div_eq h2.1 h2.2]
  · rw [if_neg h1, if_neg h2, reindexOn_of_notMem (by exact not_or.mpr ⟨h2, h1⟩)]

/-- **A square on the diagonal** is transposed. -/
theorem sseDiagonal_represents (hA : Represents m A) (hj : j < 8) :
    Represents (sseTransposeSubSquare m (sseLoadSubSquare m j j) j j)
      (reindexOn (fun x => x.1 / 16 = j ∧ x.2 / 16 = j) Prod.swap A) := by
  intro r c hc
  have hr : r % 16 < 16 := Nat.mod_lt _ (by omega)
  have hl : c % 16 < 16 := Nat.mod_lt _ (by omega)
  rw [sseTransposeSubSquare_getLsbD _ _ _ _ _ _ hc, squareBit_sseLoadSubSquare hA hj hl hr,
    hA _ _ hc]
  by_cases h : r / 16 = j ∧ c / 16 = j
  · rw [if_pos h, reindexOn_of_mem (by exact h), swap_of_div_eq h.1 h.2]
  · rw [if_neg h, reindexOn_of_notMem (by exact h)]

/-- **`SseTranspose128`** moves all entries by `Prod.swap`. -/
theorem sseTranspose128_represents (hA : Represents m A) :
    Represents (sseTranspose128 m)
      (reindexOn (fun x => ∃ j < 8, max (x.1 / 16) (x.2 / 16) = j) Prod.swap A) := by
  refine iterLoop_reindexOn Represents (fun j _ i hij x hi hj => ?_) (fun j _ x hx => ?_)
    (fun j hj m A hA => ?_) hA
  · exact hij.ne (hi.symm.trans hj)
  · rwa [Prod.fst_swap, Prod.snd_swap, max_comm]
  · -- the squares of the pairs `(j, k)` with `k < j`, after the one on the diagonal
    have hpairs := iterLoop_reindexOn Represents (n := j)
      (S := fun k x => (x.1 / 16 = j ∧ x.2 / 16 = k) ∨ (x.1 / 16 = k ∧ x.2 / 16 = j))
      (by intro k' hk' k hkk' x; omega) (by rintro k hk x (h | h) <;> simp [h])
      (fun k hk m A hA => sseExchange_represents hA hj (by omega)) (sseDiagonal_represents hA hj)
    rw [reindexOn_of_disjoint (by rintro x hx ⟨k, hk, h⟩; omega)
      (by rintro x ⟨k, hk, h | h⟩ <;> exact ⟨k, hk, by simp [h]⟩)] at hpairs
    refine (reindexOn_congr fun x => ?_) ▸ hpairs
    constructor
    · rintro (h | ⟨k, hk, h⟩) <;> omega
    · intro h
      by_cases hdiag : x.1 / 16 = j ∧ x.2 / 16 = j
      · exact .inl hdiag
      · exact .inr ⟨min (x.1 / 16) (x.2 / 16), by omega, by omega⟩

/-- **`SseTranspose128` transposes.** -/
theorem sseTranspose128_getLsbD (m : Matrix128) {r : ℕ} (hr : r < 128) (hc : c < 128) :
    (sseTranspose128 m r).getLsbD c = (m c).getLsbD r := by
  have hA : Represents m fun x => (m x.1).getLsbD x.2 := fun r c _ => rfl
  rw [sseTranspose128_represents hA r c hc, reindexOn_of_mem (by exact ⟨_, by omega, rfl⟩)]
  rfl

/-! ### Eight blocks in a row -/

/-- `std::array<std::array<block, 8>, 128>`: `m r i` is block `i` of row `r`. -/
abbrev Matrix128x1024 := ℕ → ℕ → Uint128

/-- `SseLoadSubSquarex`. -/
def sseLoadSubSquarex (m : Matrix128x1024) (x y i : ℕ) : Uint128 × Uint128 :=
  (bitsOf 128 fun l => (m (16 * x + l / 8) i).getLsbD (8 * (2 * y) + l % 8),
   bitsOf 128 fun l => (m (16 * x + l / 8) i).getLsbD (8 * (2 * y + 1) + l % 8))

/-- One write of `SseTransposeSubSquarex`. -/
def sseWriteRowx (b : Uint128) (r0 y i j : ℕ) (out : Matrix128x1024) : Matrix128x1024 :=
  Function.update out (r0 - j) (Function.update (out (r0 - j)) i
    (setLane16 (out (r0 - j) i) y (movemaskEpi8 (slliEpi64 b j))))

/-- One of the two groups of eight writes of `SseTransposeSubSquarex`, from row `r0` upwards. -/
def sseWriteRowsx (out : Matrix128x1024) (b : Uint128) (r0 y i : ℕ) : Matrix128x1024 :=
  iterLoop 8 (sseWriteRowx b r0 y i) out

/-- `SseTransposeSubSquarex`. -/
def sseTransposeSubSquarex (out : Matrix128x1024) (sq : Uint128 × Uint128) (x y i : ℕ) :
    Matrix128x1024 :=
  let out := sseWriteRowsx out sq.1 (x * 16 + 7) y i
  sseWriteRowsx out sq.2 (x * 16 + 15) y i

/-- The body of the outer loop of `SseTranspose128x1024`. -/
def sseTransposeBlocksx (i : ℕ) (inout : Matrix128x1024) : Matrix128x1024 :=
  iterLoop 8 (fun j inout =>
    let a := sseLoadSubSquarex inout j j i
    let inout := sseTransposeSubSquarex inout a j j i
    iterLoop j (fun k inout =>
      let a := sseLoadSubSquarex inout k j i
      let b := sseLoadSubSquarex inout j k i
      let inout := sseTransposeSubSquarex inout a j k i
      sseTransposeSubSquarex inout b k j i) inout) inout

/-- `SseTranspose128x1024`. -/
def sseTranspose128x1024 (inout : Matrix128x1024) : Matrix128x1024 :=
  iterLoop 8 sseTransposeBlocksx inout

/-- Replace the blocks `i` of all rows. -/
def setBlocks (m : Matrix128x1024) (i : ℕ) (s : Matrix128) : Matrix128x1024 :=
  fun r => Function.update (m r) i (s r)

theorem setBlocks_self (m : Matrix128x1024) (i : ℕ) (s : Matrix128) (r : ℕ) :
    setBlocks m i s r i = s r :=
  Function.update_self ..

variable {i : ℕ}

theorem setBlocks_of_ne (m : Matrix128x1024) {b : ℕ} (h : b ≠ i) (s : Matrix128) (r : ℕ) :
    setBlocks m i s r b = m r b :=
  Function.update_of_ne h ..

theorem setBlocks_eq_self (m : Matrix128x1024) (i : ℕ) : setBlocks m i (fun r => m r i) = m := by
  funext r
  exact Function.update_eq_self ..

theorem iterLoop_setBlocks {f : Matrix128 → Matrix128} {step : ℕ → Matrix128x1024 → Matrix128x1024}
    (hstep : ∀ i m, step i m = setBlocks m i (f fun r => m r i)) (m : Matrix128x1024) (r : ℕ)
    (hi : i < 8) : iterLoop 8 step m r i = f (fun r => m r i) r := by
  -- the blocks before `l` are new, and the others are as they were
  have hinv := iterLoop_inv (n := 8) (f := step) (s := m)
    (fun l (out : Matrix128x1024) => ∀ b r, out r b =
      if b < l then f (fun r => m r b) r else m r b) (fun b r => rfl) <| by
    intro l hl out hout b r
    rw [hstep]
    by_cases hb : b = l
    · subst hb
      rw [setBlocks_self, if_pos (by omega)]
      congr 1
      funext r
      rw [hout, if_neg (by omega)]
    · rw [setBlocks_of_ne _ hb, hout]
      exact if_congr (by omega) rfl rfl
  rw [hinv, if_pos hi]

theorem sseWriteRowx_setBlocks (m : Matrix128x1024) (s : Matrix128) (b : Uint128) (r0 y i j : ℕ) :
    sseWriteRowx b r0 y i j (setBlocks m i s) = setBlocks m i (Function.update s (r0 - j)
      (setLane16 (s (r0 - j)) y (movemaskEpi8 (slliEpi64 b j)))) := by
  funext r
  rw [sseWriteRowx, setBlocks_self]
  by_cases hr : r = r0 - j
  · subst hr
    rw [Function.update_self, setBlocks, setBlocks, Function.update_idem, Function.update_self]
  · rw [Function.update_of_ne hr, setBlocks, setBlocks, Function.update_of_ne hr]

/-- What a group of writes leaves in the matrix: the bit columns of the block, last one first. -/
theorem sseWriteRowsx_eq (m : Matrix128x1024) (s : Matrix128) (b : Uint128) (h y i : ℕ) :
    ∃ s', sseWriteRowsx (setBlocks m i s) b (8 * h + 7) y i = setBlocks m i s' ∧
      ∀ r c, c < 128 → (s' r).getLsbD c =
        if r / 8 = h ∧ c / 16 = y then b.getLsbD (8 * (c % 16) + r % 8) else (s r).getLsbD c := by
  have hloop := iterLoop_inv (n := 8) (f := sseWriteRowx b (8 * h + 7) y i)
    (fun j out => ∃ s', out = setBlocks m i s' ∧ ∀ r c, c < 128 → (s' r).getLsbD c =
      if r / 8 = h ∧ c / 16 = y ∧ 8 ≤ r % 8 + j then b.getLsbD (8 * (c % 16) + r % 8)
      else (s r).getLsbD c) ⟨s, rfl, fun r c _ => by rw [if_neg (by omega)]⟩ <| by
    rintro j hj out ⟨s', rfl, hs'⟩
    refine ⟨_, sseWriteRowx_setBlocks .., fun r c hc => ?_⟩
    by_cases hr : r = 8 * h + 7 - j
    · have hl : c % 16 < 16 := Nat.mod_lt _ (by omega)
      rw [hr, Function.update_self, getLsbD_setLane16 _ _ _ hc, getLsbD_movemaskEpi8 _ hl,
        slliEpi64, getLsbD_bitsOf, decide_eq_true (by omega), decide_eq_true (by omega),
        Bool.true_and, Bool.true_and, hs' _ _ hc,
        show 8 * (c % 16) + 7 - j = 8 * (c % 16) + (8 * h + 7 - j) % 8 by omega]
      by_cases hy : c / 16 = y
      · rw [if_pos hy, if_pos (by omega)]
      · rw [if_neg hy, if_neg (by omega), if_neg (by omega)]
    · rw [Function.update_of_ne hr, hs' _ _ hc]
      exact if_congr (by omega) rfl rfl
  obtain ⟨s', hout, hs'⟩ := hloop
  refine ⟨s', hout, fun r c hc => ?_⟩
  rw [hs' r c hc]
  exact if_congr (by omega) rfl rfl

theorem sseTransposeSubSquarex_eq (m : Matrix128x1024) (s : Matrix128) (sq : Uint128 × Uint128)
    (x y i : ℕ) :
    sseTransposeSubSquarex (setBlocks m i s) sq x y i =
      setBlocks m i (sseTransposeSubSquare s sq x y) := by
  obtain ⟨s1, h1, hbits1⟩ := sseWriteRowsx_eq m s sq.1 (2 * x) y i
  obtain ⟨s2, h2, hbits2⟩ := sseWriteRowsx_eq m s1 sq.2 (2 * x + 1) y i
  rw [sseTransposeSubSquarex, show x * 16 + 7 = 8 * (2 * x) + 7 by omega, h1,
    show x * 16 + 15 = 8 * (2 * x + 1) + 7 by omega, h2]
  congr 1
  funext r
  refine BitVec.eq_of_getLsbD_eq fun c hc => ?_
  rw [hbits2 r c hc, hbits1 r c hc, sseTransposeSubSquare_getLsbD _ _ _ _ _ _ hc, squareBit]
  by_cases hy : r / 16 = x ∧ c / 16 = y
  · by_cases hlow : r % 16 < 8
    · rw [if_neg (by omega), if_pos (by omega), if_pos hy, if_pos hlow,
        show r % 8 = r % 16 by omega]
    · rw [if_pos (by omega), if_pos hy, if_neg hlow, show r % 8 = r % 16 - 8 by omega]
  · rw [if_neg (by omega), if_neg (by omega), if_neg hy]

theorem sseLoadSubSquarex_eq (m : Matrix128x1024) (s : Matrix128) (x y i : ℕ) :
    sseLoadSubSquarex (setBlocks m i s) x y i = sseLoadSubSquare s x y := by
  simp only [sseLoadSubSquarex, setBlocks_self, sseLoadSubSquare]

theorem sseTransposeBlocksx_eq (m : Matrix128x1024) (i : ℕ) (s : Matrix128) :
    sseTransposeBlocksx i (setBlocks m i s) = setBlocks m i (sseTranspose128 s) := by
  refine iterLoop_hom (setBlocks m i) (fun j s => ?_) s
  dsimp only
  rw [sseLoadSubSquarex_eq, sseTransposeSubSquarex_eq]
  refine iterLoop_hom (setBlocks m i) (fun k s => ?_) _
  rw [sseLoadSubSquarex_eq, sseLoadSubSquarex_eq, sseTransposeSubSquarex_eq,
    sseTransposeSubSquarex_eq]

/-- **`SseTranspose128x1024`** transposes the eight blocks one by one. -/
theorem sseTranspose128x1024_eq (m : Matrix128x1024) (r : ℕ) (hi : i < 8) :
    sseTranspose128x1024 m r i = sseTranspose128 (fun r => m r i) r := by
  refine iterLoop_setBlocks (fun i m => ?_) m r hi
  rw [← sseTransposeBlocksx_eq, setBlocks_eq_self]

end Yacl
