import Mathlib.Tactic

/-!
# Trees with correction words

Two parties walk down a binary tree of labelled nodes. A node carries a seed and a control
bit; the two children of a seed come from a splitting function, and a **correction word**
that both parties hold is xored into the children of exactly those nodes whose control bit
is set. The correction word of a level is made from the pair of nodes the parties stand on
and from the direction to **keep**:

* in the other direction the two children become **equal** (`corr_child_lose`);
* in the kept direction their control bits stay **different** (`corr_child_keep`).

So two walks that follow the kept directions keep opposite control bits, and two walks that
leave them once agree for ever after. `walk_cases` is that statement for a whole walk; it
is the invariant behind distributed point and comparison functions.

A walk can also **collect values** from an abelian group, one from every edge it takes, with
a value correction added where the control bit is set. The corrections are chosen such that
the difference of two walks collapses when they leave the kept path: it is `beta` if they
leave it where the kept direction is `true`, and zero otherwise (`walkSum_of_leave`).
-/

namespace CorrectedTree

variable {w : ℕ}

/-- A node: its seed and its control bit. -/
@[ext]
structure Node (w : ℕ) where
  seed : BitVec w
  bit : Bool
deriving DecidableEq

/-- A correction word: a seed, and a bit for each direction. -/
structure Corr (w : ℕ) where
  seed : BitVec w
  bit : Bool → Bool

theorem Corr.ext_bits {c c' : Corr w} (hseed : c.seed = c'.seed)
    (hfalse : c.bit false = c'.bit false) (htrue : c.bit true = c'.bit true) : c = c' := by
  obtain ⟨s, b⟩ := c
  obtain ⟨s', b'⟩ := c'
  obtain rfl : s = s' := hseed
  obtain rfl : b = b' := funext fun d => by cases d <;> assumption
  rfl

/-- The child of a node in direction `d`, corrected when the control bit is set. -/
def Corr.child (split : BitVec w → Bool → BitVec w × Bool) (c : Corr w) (x : Node w)
    (d : Bool) : Node w :=
  ⟨if x.bit then (split x.seed d).1 ^^^ c.seed else (split x.seed d).1,
   (split x.seed d).2 ^^ (x.bit && c.bit d)⟩

/-- The correction word for the pair of nodes `x`, `y` that keeps direction `keep`. -/
def corr (split : BitVec w → Bool → BitVec w × Bool) (x y : Node w) (keep : Bool) : Corr w :=
  ⟨(split x.seed !keep).1 ^^^ (split y.seed !keep).1,
   fun d => (split x.seed d).2 ^^ (split y.seed d).2 ^^ (d == keep)⟩

variable (split : BitVec w → Bool → BitVec w × Bool)
variable {x y : Node w}

/-- Off the kept direction the corrected children of nodes with opposite bits coincide. -/
theorem corr_child_lose (h : y.bit = !x.bit) {keep d : Bool} (hd : d ≠ keep) :
    (corr split x y keep).child split x d = (corr split x y keep).child split y d := by
  obtain rfl : d = !keep := by cases d <;> cases keep <;> simp_all
  -- exactly one of the two children is corrected, and the correction is their difference
  cases hx : x.bit <;> rw [hx] at h <;> ext1 <;> simp [Corr.child, corr, hx] <;> grind

theorem corr_child_keep (h : y.bit = !x.bit) (keep : Bool) :
    ((corr split x y keep).child split y keep).bit =
      !((corr split x y keep).child split x keep).bit := by
  cases hx : x.bit <;> rw [hx] at h <;> simp [Corr.child, corr, h, hx]
  cases (split x.seed keep).2 <;> cases (split y.seed keep).2 <;> rfl

/-! ### The kept path and arbitrary walks -/

/-- The pair of nodes on the kept path at depth `i`, when the directions kept are `keep`. -/
def path (keep : ℕ → Bool) (x y : Node w) : ℕ → Node w × Node w
  | 0 => (x, y)
  | i + 1 =>
    let p := path keep x y i
    let c := corr split p.1 p.2 (keep i)
    (c.child split p.1 (keep i), c.child split p.2 (keep i))

/-- The correction word of level `i` along the kept path. -/
def pathCorr (keep : ℕ → Bool) (x y : Node w) (i : ℕ) : Corr w :=
  corr split (path split keep x y i).1 (path split keep x y i).2 (keep i)

/-- The node that a walk with directions `d` reaches at depth `i`, corrected level by level
by the words `cs`. -/
def walk (cs : ℕ → Corr w) (d : ℕ → Bool) (x : Node w) : ℕ → Node w
  | 0 => x
  | i + 1 => (cs i).child split (walk cs d x i) (d i)

variable {d : ℕ → Bool} {i : ℕ}

theorem walk_congr {cs : ℕ → Corr w} {d' : ℕ → Bool} (h : ∀ j < i, d j = d' j) :
    walk split cs d x i = walk split cs d' x i := by
  induction i with
  | zero => rfl
  | succ i ih => rw [walk, walk, ih fun j hj => h j (by omega), h i (by omega)]

variable {keep : ℕ → Bool}

theorem path_bit (h : y.bit = !x.bit) (i : ℕ) :
    (path split keep x y i).2.bit = !(path split keep x y i).1.bit := by
  induction i with
  | zero => exact h
  | succ i ih => exact corr_child_keep split ih (keep i)

theorem walk_of_agree (h : ∀ j < i, d j = keep j) :
    walk split (pathCorr split keep x y) d x i = (path split keep x y i).1 ∧
      walk split (pathCorr split keep x y) d y i = (path split keep x y i).2 := by
  induction i with
  | zero => exact ⟨rfl, rfl⟩
  | succ i ih =>
    obtain ⟨h1, h2⟩ := ih fun j hj => h j (by omega)
    simp only [walk, path, h1, h2, h i (by omega), pathCorr, and_self]

theorem walk_bit_of_agree (hb : y.bit = !x.bit) (h : ∀ j < i, d j = keep j) :
    (walk split (pathCorr split keep x y) d y i).bit =
      !(walk split (pathCorr split keep x y) d x i).bit := by
  obtain ⟨h1, h2⟩ := walk_of_agree split h
  rw [h1, h2, path_bit split hb]

theorem walk_eq_of_le {cs : ℕ → Corr w} {j : ℕ} (hij : i ≤ j)
    (h : walk split cs d x i = walk split cs d y i) :
    walk split cs d x j = walk split cs d y j := by
  induction j, hij using Nat.le_induction with
  | base => exact h
  | succ j _ ih => simp only [walk, ih]

/-- A walk that leaves the kept directions at depth `i` meets its twin at depth `i + 1`. -/
theorem walk_meet (hb : y.bit = !x.bit) (hagree : ∀ j < i, d j = keep j) (hleave : d i ≠ keep i) :
    walk split (pathCorr split keep x y) d x (i + 1) =
      walk split (pathCorr split keep x y) d y (i + 1) := by
  obtain ⟨h1, h2⟩ := walk_of_agree split (x := x) (y := y) hagree
  simp only [walk, h1, h2]
  exact corr_child_lose split (path_bit split hb i) hleave

/-- **The walk invariant.** Two walks from nodes with opposite bits either follow the kept
path all the way, or have met. -/
theorem walk_cases (hb : y.bit = !x.bit) (i : ℕ) :
    (∀ j < i, d j = keep j) ∨
      walk split (pathCorr split keep x y) d x i =
        walk split (pathCorr split keep x y) d y i := by
  induction i with
  | zero => exact .inl fun j hj => absurd hj (by omega)
  | succ i ih =>
    rcases ih with hagree | hmet
    · by_cases hd : d i = keep i
      · refine .inl fun j hj => ?_
        rcases Nat.lt_succ_iff_lt_or_eq.mp hj with hlt | rfl
        · exact hagree j hlt
        · exact hd
      · exact .inr (walk_meet split hb hagree hd)
    · exact .inr (walk_eq_of_le split (Nat.le_succ i) hmet)

/-! ### Values collected along a walk -/

section Values

variable {A : Type*} [AddCommGroup A] (val : BitVec w → Bool → A) (beta : A)

/-- What a node adds when the walk takes direction `d`: the value of the edge, and the
correction `c` if the control bit is set. -/
def edgeTerm (x : Node w) (d : Bool) (c : A) : A := val x.seed d + if x.bit then c else 0

/-- The difference that two nodes with opposite control bits add. -/
def edgeDiff (x y : Node w) (d : Bool) (c : A) : A :=
  val x.seed d - val y.seed d + if y.bit then -c else c

theorem edgeTerm_sub_edgeTerm {x y : Node w} (h : y.bit = !x.bit) (d : Bool) (c : A) :
    edgeTerm val x d c - edgeTerm val y d c = edgeDiff val x y d c := by
  cases hx : x.bit <;> rw [hx] at h <;> simp [edgeTerm, edgeDiff, h, hx] <;> abel

/-- The value correction for the nodes `x`, `y` that keeps direction `keep`, when the
difference collected so far is `v`. -/
def valCorr (v : A) (x y : Node w) (keep : Bool) : A :=
  let base := val y.seed (!keep) - val x.seed (!keep) - v + if keep then beta else 0
  if y.bit then -base else base

theorem edgeDiff_lose (v : A) (x y : Node w) {keep d : Bool} (hd : d ≠ keep) :
    v + edgeDiff val x y d (valCorr val beta v x y keep) = if keep then beta else 0 := by
  obtain rfl : d = !keep := by cases d <;> cases keep <;> simp_all
  cases hy : y.bit <;> simp [edgeDiff, valCorr, hy] <;> abel

/-- The difference collected along the kept path up to depth `i`. -/
def pathSum (keep : ℕ → Bool) (x y : Node w) : ℕ → A
  | 0 => 0
  | i + 1 =>
    let v := pathSum keep x y i
    let p := path split keep x y i
    v + edgeDiff val p.1 p.2 (keep i) (valCorr val beta v p.1 p.2 (keep i))

/-- The value correction of level `i` along the kept path. -/
def pathVal (keep : ℕ → Bool) (x y : Node w) (i : ℕ) : A :=
  valCorr val beta (pathSum split val beta keep x y i) (path split keep x y i).1
    (path split keep x y i).2 (keep i)

/-- What a walk with directions `d` collects up to depth `i`, under the correction words `cs`
and the value corrections `vs`. -/
def walkSum (cs : ℕ → Corr w) (vs : ℕ → A) (d : ℕ → Bool) (x : Node w) : ℕ → A
  | 0 => 0
  | i + 1 => walkSum cs vs d x i + edgeTerm val (walk split cs d x i) (d i) (vs i)

variable {keep d : ℕ → Bool} {x y : Node w} {i : ℕ}

/-- As long as two walks follow the kept path, their difference is the one of the path. -/
theorem walkSum_of_agree (hb : y.bit = !x.bit) (h : ∀ j < i, d j = keep j) :
    let sum := walkSum split val (pathCorr split keep x y) (pathVal split val beta keep x y) d
    sum x i - sum y i = pathSum split val beta keep x y i := by
  intro sum
  induction i with
  | zero => exact sub_self 0
  | succ i ih =>
    have hi : ∀ j < i, d j = keep j := fun j hj => h j (by omega)
    obtain ⟨h1, h2⟩ := walk_of_agree split (x := x) (y := y) hi
    simp only [sum, walkSum, h1, h2, h i (by omega)] at ih ⊢
    rw [add_sub_add_comm, ih hi, edgeTerm_sub_edgeTerm val (path_bit split hb i)]
    rfl

/-- **The values collapse where two walks leave the kept path.** -/
theorem walkSum_of_leave (hb : y.bit = !x.bit) {j : ℕ} (hj : j < i)
    (hagree : ∀ k < j, d k = keep k) (hleave : d j ≠ keep j) :
    let sum := walkSum split val (pathCorr split keep x y) (pathVal split val beta keep x y) d
    sum x i - sum y i = if keep j then beta else 0 := by
  intro sum
  induction i, hj using Nat.le_induction with
  | base =>
    have hsum : sum x j - sum y j = _ := walkSum_of_agree split val beta hb hagree
    obtain ⟨h1, h2⟩ := walk_of_agree split (x := x) (y := y) hagree
    simp only [sum, walkSum, h1, h2] at hsum ⊢
    rw [add_sub_add_comm, hsum, edgeTerm_sub_edgeTerm val (path_bit split hb j)]
    exact edgeDiff_lose val beta _ _ _ hleave
  | succ i hji ih =>
    -- the walks have met, so both add the same
    have hmet := walk_eq_of_le split hji (walk_meet split hb hagree hleave)
    simp only [sum, walkSum, hmet] at ih ⊢
    rw [add_sub_add_comm, ih, sub_self, add_zero]

end Values

end CorrectedTree
