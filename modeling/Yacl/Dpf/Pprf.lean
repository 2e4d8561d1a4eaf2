import Yacl.Dpf.GE2n
import Yacl.Lib.GgmTree
import Yacl.Lib.Loop

/-!
# Puncturable pseudo random functions

The model of `yacl/crypto/experimental/dpf/pprf.{h,cc}`. The two outputs of `GgmPrg` are the
parameter `g`: `g x false` is what it writes to `out1` and `g x true` what it writes to
`out2`. The working vector of `2 ^ M` seeds is a list, and the punctured key's
`unordered_map` a hash map whose `insert`, like that of the source, keeps an entry that is
already there. Vectors can always be allocated.

`ggmExpandAndPunc_ok` says that puncturing adds exactly the siblings of the path to the
punctured point, and `pprfPuncEvalLoop_ok` that the punctured evaluation picks the sibling at
which the input leaves that path and goes on from there.
-/

open GgmTree Loop

namespace Yacl.Crypto

/-- `PprfPuncKey`. -/
structure PprfPuncKey where
  puncPoint : Uint128
  seeds : Std.HashMap ℕ Uint128

section Model

variable (g : Uint128 → Bool → Uint128) {M N : ℕ}

/-- `GgmExpandAndPunc<M>`: the working span and the seeds of the key afterwards. The size of
the span is a power of two, on which the floating point `log2` is exact. -/
def ggmExpandAndPunc (span : List Uint128) (puncPoint : GE2n M)
    (seeds : Std.HashMap ℕ Uint128) : Except Exception (List Uint128 × Std.HashMap ℕ Uint128) := do
  let num := span.length
  let i := M - num.log2
  if 1 < num then
    let input ← vecGet span 0
    let span ← vecSet span 0 (g input false)
    let span ← vecSet span (num / 2) (g input true)
    let left := span.take (num / 2)
    let right := (span.drop (num / 2)).take (num / 2)
    let bit ← puncPoint.getBit i
    if !bit then
      let (left, seeds) ← ggmExpandAndPunc left puncPoint seeds
      let sibling ← vecGet right 0
      pure (left ++ right, seeds.insertIfNew i sibling)
    else
      let sibling ← vecGet left 0
      let (right, seeds) ← ggmExpandAndPunc right puncPoint (seeds.insertIfNew i sibling)
      pure (left ++ right, seeds)
  else
    pure (span, seeds)
termination_by span.length
decreasing_by
  all_goals
    simp only [List.length_take]
    omega

/-- `PprfPunc<M, N>`, writing into the key object `out`. -/
def pprfPunc (prfKey : Uint128) (puncPoint : GE2n M) (out : PprfPuncKey) :
    Except Exception PprfPuncKey := do
  let num := if M = 64 then 2 ^ 64 - 1 else 2 ^ M
  let workingVec ← vecSet (List.replicate num 0) 0 prfKey
  let (_, seeds) ← ggmExpandAndPunc g workingVec puncPoint out.seeds
  pure { puncPoint := puncPoint.getVal, seeds := seeds }

/-- `at` of an `unordered_map`. -/
def mapAt (m : Std.HashMap ℕ Uint128) (i : ℕ) : Except Exception Uint128 :=
  match m[i]? with
  | some v => pure v
  | none => throw .outOfRange

/-- One iteration of the loop of `PprfPuncEval`; the state is `is_same`, `retrived` and
`current_seed`. -/
def pprfPuncEvalStep (seeds : Std.HashMap ℕ Uint128) (puncPoint point : GE2n M) (i : ℕ)
    (s : Bool × Bool × Uint128) : Except Exception (Bool × Bool × Uint128) := do
  let (isSame, retrived, seed) := s
  let bit ← point.getBit i
  let puncBit ← puncPoint.getBit i
  let isSame := isSame && bit == puncBit
  if !isSame then
    if !retrived then
      let seed ← mapAt seeds i
      pure (isSame, true, seed)
    else
      pure (isSame, retrived, g seed bit)
  else
    pure (isSame, retrived, seed)

/-- `PprfPuncEval<M, N>`. -/
def pprfPuncEval (puncKey : PprfPuncKey) (point : GE2n M) : Except Exception (GE2n N) := do
  let puncPoint : GE2n M := ⟨puncKey.puncPoint⟩
  enforce (puncPoint.getVal ≠ point.getVal) "punc_point != point"
    "You cannot evaluate the already-punctured point with PprfPuncEval!"
  let (_, _, seed) ← forLoop M (pprfPuncEvalStep g puncKey.seeds puncPoint point) (true, false, 0)
  pure ⟨seed⟩

/-- One iteration of the loop of `PprfEval`; the state is `current_seed`. -/
def pprfEvalStep (point : GE2n M) (i : ℕ) (seed : Uint128) : Except Exception Uint128 := do
  let bit ← point.getBit i
  pure (g seed bit)

/-- `PprfEval<M, N>`. -/
def pprfEval (prfKey : Uint128) (point : GE2n M) : Except Exception (GE2n N) := do
  let seed ← forLoop M (pprfEvalStep g point) prfKey
  pure ⟨seed⟩

end Model

section Correct

variable (g : Uint128 → Bool → Uint128) {M N : ℕ}

/-- The directions that a point selects, least significant bit first. -/
def pprfDir (a : GE2n M) (i : ℕ) : Bool := a.store.getLsbD i

theorem mapAt_of_getElem? {m : Std.HashMap ℕ Uint128} {i : ℕ} {v : Uint128}
    (h : m[i]? = some v) : mapAt m i = .ok v := by
  rw [mapAt, h]
  rfl

theorem getElem?_insertIfNew_eq_or (m : Std.HashMap ℕ Uint128) (i j : ℕ) (v : Uint128) :
    (m.insertIfNew i v)[j]? = if i = j then m[j]?.or (some v) else m[j]? := by
  rw [Std.HashMap.getElem?_insertIfNew]
  by_cases hij : i = j
  · subst hij
    by_cases hmem : i ∈ m
    · simp [hmem]
    · simp [hmem]
  · simp [hij]

/-- The two halves of a span after `GgmPrg` has written the children of its first entry. -/
theorem halves_ok {k : ℕ} {span : List Uint128} (hlen : span.length = 2 ^ (k + 1)) (l r : Uint128) :
    ∃ span1, vecSet span 0 l = .ok span1 ∧ ∃ span2, vecSet span1 (2 ^ k) r = .ok span2 ∧
      ((span2.take (2 ^ k)).length = 2 ^ k ∧ (span2.take (2 ^ k))[0]? = some l) ∧
      (((span2.drop (2 ^ k)).take (2 ^ k)).length = 2 ^ k ∧
        ((span2.drop (2 ^ k)).take (2 ^ k))[0]? = some r) := by
  have hpos : 0 < 2 ^ k := Nat.two_pow_pos k
  refine ⟨_, vecSet_of_lt (by omega) l, _, vecSet_of_lt (by simp; omega) r, ⟨?_, ?_⟩, ?_, ?_⟩
  · simp
    omega
  · rw [List.getElem?_take_of_lt hpos, List.getElem?_set_ne (by omega),
      List.getElem?_set_self (by omega)]
  · simp
    omega
  · rw [List.getElem?_take_of_lt hpos, List.getElem?_drop, Nat.add_zero,
      List.getElem?_set_self (by simp; omega)]

/-- **Puncturing adds the siblings.** Started at the node of the path to the punctured point
that is `k` levels above the leaves, `GgmExpandAndPunc` returns, and the entries of the levels
below are, where the map had none before, the siblings of that path. -/
theorem ggmExpandAndPunc_ok (hM : M ≤ 128) (puncPoint : GE2n M) (key : Uint128) {k : ℕ}
    (hk : k ≤ M) {span : List Uint128} (hlen : span.length = 2 ^ k)
    (hhead : span[0]? = some (ggmWalk g (pprfDir puncPoint) key (M - k)))
    (seeds : Std.HashMap ℕ Uint128) :
    ∃ span' seeds', ggmExpandAndPunc g span puncPoint seeds = .ok (span', seeds') ∧
      ∀ j : ℕ, seeds'[j]? = if M - k ≤ j ∧ j < M then
        seeds[j]?.or (some (ggmSibling g (pprfDir puncPoint) key j)) else seeds[j]? := by
  induction k generalizing span seeds with
  | zero =>
    refine ⟨span, seeds, ?_, fun j => ?_⟩
    · rw [ggmExpandAndPunc, if_neg (by omega)]
      rfl
    · rw [if_neg (by omega)]
  | succ k ih =>
    have hhalf : 2 ^ (k + 1) / 2 = 2 ^ k := by rw [pow_succ, Nat.mul_div_cancel _ (by omega)]
    have hlevel : M - k = M - (k + 1) + 1 := by omega
    have hnum : 1 < 2 ^ (k + 1) := Nat.one_lt_two_pow (by omega)
    rw [hlevel, ggmWalk] at ih
    generalize hi : M - (k + 1) = i at ih hhead
    generalize hnode : ggmWalk g (pprfDir puncPoint) key i = node at ih hhead
    obtain ⟨span1, h1, span2, h2, ⟨hleft, hlhead⟩, hright, hrhead⟩ :=
      halves_ok hlen (g node false) (g node true)
    rw [ggmExpandAndPunc]
    simp only [hlen, Nat.log2_two_pow, hi, if_pos hnum, vecGet_of_getElem? hhead, ok_bind, h1,
      hhalf, h2, GE2n.getBit_of_lt puncPoint (show i < 128 by omega)]
    have hsib : ggmSibling g (pprfDir puncPoint) key i = g node (!pprfDir puncPoint i) := by
      rw [ggmSibling, hnode]
    have hbelow : ∀ j, i ≠ j → (i + 1 ≤ j ∧ j < M ↔ i ≤ j ∧ j < M) := by omega
    cases hbit : puncPoint.store.getLsbD i <;> rw [pprfDir, hbit] at ih hsib
    · -- the path goes left: the right child is inserted after the recursion
      obtain ⟨left', seeds', hrec, hseeds⟩ := ih (by omega) hleft hlhead seeds
      refine ⟨left' ++ (span2.drop (2 ^ k)).take (2 ^ k), seeds'.insertIfNew i (g node true),
        ?_, fun j => ?_⟩
      · simp only [hrec, vecGet_of_getElem? hrhead]
        rfl
      · rw [getElem?_insertIfNew_eq_or, hseeds]
        by_cases hij : i = j
        · subst hij
          rw [if_pos rfl, if_neg (by omega), if_pos (by omega), hsib]
          rfl
        · simp only [if_neg hij, hbelow j hij]
    · -- the path goes right: the left child is inserted before the recursion
      obtain ⟨right', seeds', hrec, hseeds⟩ :=
        ih (by omega) hright hrhead (seeds.insertIfNew i (g node false))
      refine ⟨span2.take (2 ^ k) ++ right', seeds', ?_, fun j => ?_⟩
      · simp only [vecGet_of_getElem? hlhead, ok_bind, hrec]
        rfl
      · rw [hseeds, getElem?_insertIfNew_eq_or]
        by_cases hij : i = j
        · subst hij
          rw [if_neg (by omega), if_pos rfl, if_pos (by omega), hsib]
          rfl
        · simp only [if_neg hij, hbelow j hij]

/-- **`PprfPunc`** into a key object without seeds returns the key with the siblings of the
path to the punctured point. -/
theorem pprfPunc_ok (hM : M < 64) (prfKey : Uint128) (puncPoint : GE2n M) (out : PprfPuncKey)
    (hout : out.seeds = ∅) :
    ∃ pk, pprfPunc g prfKey puncPoint out = .ok pk ∧ pk.puncPoint = puncPoint.getVal ∧
      ∀ j < M, pk.seeds[j]? = some (ggmSibling g (pprfDir puncPoint) prfKey j) := by
  have hnum : 0 < (List.replicate (2 ^ M) (0 : Uint128)).length := by
    rw [List.length_replicate]
    exact Nat.two_pow_pos M
  have hhead : ((List.replicate (2 ^ M) (0 : Uint128)).set 0 prfKey)[0]? =
      some (ggmWalk g (pprfDir puncPoint) prfKey (M - M)) := by
    rw [List.getElem?_set_self hnum, Nat.sub_self, ggmWalk]
  obtain ⟨span', seeds', hrec, hseeds⟩ := ggmExpandAndPunc_ok g (by omega) puncPoint
    prfKey le_rfl (by simp) hhead ∅
  refine ⟨{ puncPoint := puncPoint.getVal, seeds := seeds' }, ?_, rfl, fun j hj => ?_⟩
  · simp only [pprfPunc, if_neg (show M ≠ 64 by omega), vecSet_of_lt hnum, ok_bind, hout, hrec]
    rfl
  · rw [hseeds, if_pos ⟨by omega, hj⟩, Std.HashMap.getElem?_empty]
    rfl

theorem pprfEval_ok (hM : M ≤ 128) (prfKey : Uint128) (point : GE2n M) :
    pprfEval g prfKey point = .ok (⟨ggmWalk g (pprfDir point) prfKey M⟩ : GE2n N) := by
  have hloop : forLoop M (pprfEvalStep g point) prfKey =
      .ok (ggmWalk g (pprfDir point) prfKey M) :=
    forLoop_eq_ok (ggmWalk g (pprfDir point) prfKey) fun i hi => by
      rw [pprfEvalStep, GE2n.getBit_of_lt point (by omega)]
      rfl
  rw [pprfEval, hloop]
  rfl

/-- **The loop of `PprfPuncEval`.** While the point follows the punctured one nothing is
computed; from the level at which it leaves it, the seed is the node of the walk along it. -/
theorem pprfPuncEvalLoop_ok (hM : M ≤ 128) {prfKey : Uint128} {puncPoint : GE2n M} (point : GE2n M)
    {seeds : Std.HashMap ℕ Uint128}
    (hseeds : ∀ j < M, seeds[j]? = some (ggmSibling g (pprfDir puncPoint) prfKey j)) :
    ∃ s, forLoop M (pprfPuncEvalStep g seeds puncPoint point) (true, false, 0) = .ok s ∧
      (s = (true, false, 0) ∧ (∀ j < M, pprfDir point j = pprfDir puncPoint j) ∨
        s = (false, true, ggmWalk g (pprfDir point) prfKey M)) := by
  refine forLoop_ok (fun i s =>
    s = (true, false, 0) ∧ (∀ j < i, pprfDir point j = pprfDir puncPoint j) ∨
      s = (false, true, ggmWalk g (pprfDir point) prfKey i))
    (.inl ⟨rfl, fun j hj => absurd hj (by omega)⟩) ?_
  intro i hi s hs
  have hbit := GE2n.getBit_of_lt point (show i < 128 by omega)
  have hpunc := GE2n.getBit_of_lt puncPoint (show i < 128 by omega)
  rcases hs with ⟨rfl, hagree⟩ | rfl
  · by_cases hdir : pprfDir point i = pprfDir puncPoint i
    · refine ⟨(true, false, 0), ?_, .inl ⟨rfl, fun j hj => ?_⟩⟩
      · simp only [pprfPuncEvalStep, hbit, hpunc, ok_bind]
        rw [show (point.store.getLsbD i == puncPoint.store.getLsbD i) = true from
          beq_iff_eq.mpr hdir]
        rfl
      · rcases Nat.lt_succ_iff_lt_or_eq.mp hj with hlt | rfl
        · exact hagree j hlt
        · exact hdir
    · refine ⟨(false, true, ggmWalk g (pprfDir point) prfKey (i + 1)), ?_, .inr rfl⟩
      rw [ggmWalk_of_leave g hagree hdir]
      simp only [pprfPuncEvalStep, hbit, hpunc, ok_bind, mapAt_of_getElem? (hseeds i hi)]
      rw [show (point.store.getLsbD i == puncPoint.store.getLsbD i) = false from
        beq_eq_false_iff_ne.mpr hdir]
      rfl
  · refine ⟨(false, true, ggmWalk g (pprfDir point) prfKey (i + 1)), ?_, .inr rfl⟩
    simp only [pprfPuncEvalStep, hbit, hpunc]
    rfl

/-- A punctured key only has the masked punctured point, whose bits below `M` are the same. -/
theorem pprfDir_mk_getVal (hM : M ≤ 128) (a : GE2n M) {i : ℕ} (hi : i < M) :
    pprfDir (⟨a.getVal⟩ : GE2n M) i = pprfDir a i := by
  have h := GE2n.testBit_getVal hM a i
  rwa [decide_eq_true hi, Bool.true_and] at h

/-- **Correctness of the punctured key.** A key that is punctured at `puncPoint`, in a key
object without seeds, evaluates like the master key at every other point, and throws at the
punctured one. -/
theorem pprfPuncEval_eq_pprfEval (hM : M < 64) (prfKey : Uint128) (puncPoint : GE2n M)
    (out : PprfPuncKey) (hout : out.seeds = ∅) :
    ∃ pk, pprfPunc g prfKey puncPoint out = .ok pk ∧
      ∀ point : GE2n M,
        (point.getVal ≠ puncPoint.getVal → ∃ y : GE2n N,
          pprfEval g prfKey point = .ok y ∧ pprfPuncEval g pk point = .ok y) ∧
        (point.getVal = puncPoint.getVal →
          pprfPuncEval g pk point = (.error (.enforceNotMet "punc_point != point"
            "You cannot evaluate the already-punctured point with PprfPuncEval!") :
              Except Exception (GE2n N))) := by
  have hM' : M ≤ 128 := by omega
  obtain ⟨pk, hpk, hpoint, hseeds⟩ := pprfPunc_ok g hM prfKey puncPoint out hout
  have hval : (⟨pk.puncPoint⟩ : GE2n M).getVal = puncPoint.getVal := by
    rw [hpoint, GE2n.getVal_eq_iff hM', GE2n.toZMod_mk_getVal hM']
  refine ⟨pk, hpk, fun point => ⟨fun hne => ?_, fun heq => ?_⟩⟩
  · refine ⟨_, pprfEval_ok g hM' prfKey point, ?_⟩
    have hseeds' : ∀ j < M, pk.seeds[j]? =
        some (ggmSibling g (pprfDir (⟨pk.puncPoint⟩ : GE2n M)) prfKey j) := fun j hj => by
      have hdir : ∀ i ≤ j, pprfDir (⟨pk.puncPoint⟩ : GE2n M) i = pprfDir puncPoint i :=
        fun i hi => by rw [hpoint, pprfDir_mk_getVal hM' _ (by omega)]
      rw [hseeds j hj, ggmSibling, ggmSibling, hdir j le_rfl,
        ggmWalk_congr g fun i hi => hdir i (by omega)]
    obtain ⟨s, hs, ⟨-, hagree⟩ | rfl⟩ := pprfPuncEvalLoop_ok g hM' point hseeds'
    · -- a point that agrees with the punctured one on all bits has its value
      exact absurd ((GE2n.getVal_eq_iff_getLsbD hM' _ _).mpr hagree) (hval ▸ hne)
    · rw [pprfPuncEval, enforce_bind (by rw [hval]; exact hne.symm), hs]
      rfl
  · rw [pprfPuncEval, enforce_of_neg (by rw [hval, heq]; simp)]
    rfl

end Correct

/-- A function on three bits that is punctured at `5`. -/
theorem pprfPuncEval_eq_pprfEval_three :
    ∃ pk, pprfPunc (fun x b => if b then x + 1 else x * 3) 11 (⟨5⟩ : GE2n 3) ⟨0, ∅⟩ = .ok pk ∧
      ∀ point : GE2n 3,
        (point.getVal ≠ 5 → ∃ y : GE2n 64,
          pprfEval (fun x b => if b then x + 1 else x * 3) 11 point = .ok y ∧
          pprfPuncEval (fun x b => if b then x + 1 else x * 3) pk point = .ok y) ∧
        (point.getVal = 5 →
          pprfPuncEval (fun x b => if b then x + 1 else x * 3) pk point =
            (.error (.enforceNotMet "punc_point != point"
              "You cannot evaluate the already-punctured point with PprfPuncEval!") :
                Except Exception (GE2n 64))) :=
  pprfPuncEval_eq_pprfEval _ (by decide) 11 ⟨5⟩ ⟨0, ∅⟩ rfl

end Yacl.Crypto
