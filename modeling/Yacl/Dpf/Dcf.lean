import Mathlib.Data.Nat.Bitwise
import Yacl.Dpf.Level
import Yacl.Lib.Loop

/-!
# Distributed comparison functions

The model of `yacl/crypto/experimental/dpf/dcf.{h,cc}`. The tree is that of the distributed
point function, with the bits of the input taken from the most significant one on. At every
level a party also adds a value of the edge it takes, corrected by the level's `v`; the
corrections make the sums of the two parties collapse to a share of `beta` or of zero at the
first bit where the input differs from `alpha`.

`dcfKeyGenLevels_ok` and `dcfEvalLevels_ok` connect the two loops with `CorrectedTree`, where
the collapse is `walkSum_of_leave`.
-/

open CorrectedTree Loop

namespace Yacl.Crypto

/-- `DcfKey::CW`: the fields and setters of the correction word of the point function, with
the value correction `v_`. -/
structure DcfKey.CW extends Crypto.CW where
  v : Uint128 := 0
deriving DecidableEq

/-- `DcfKey`. -/
structure DcfKey where
  cwsVec : List DcfKey.CW := []
  lastCwVec : List Uint128 := []
  rank : Bool := false
  mseed : Uint128 := 0
deriving DecidableEq

section Model

variable (prg : Prg) {M N : ℕ}

/-- `DcfPRG<N>`. -/
def dcfPRG (N : ℕ) (seed : Uint128) : GE2n N := ⟨prg 16 seed 0⟩

/-- `SplitDcfSeed`: the left seed, value seed and bit, then the right ones. -/
def splitDcfSeed (seed : Uint128) : Uint128 × Uint128 × Bool × Uint128 × Uint128 × Bool :=
  let seedLeft := prg 80 seed 0
  let seedRight := prg 80 seed 1
  let vSeedLeft := prg 80 seed 2
  let vSeedRight := prg 80 seed 3
  let tmp := prg 80 seed 4
  (seedLeft, vSeedLeft, (tmp >>> 1).getLsbD 0, seedRight, vSeedRight, (tmp >>> 2).getLsbD 0)

/-- The seeds and bits of `SplitDcfSeed`. -/
def dcfSeeds (seed : Uint128) : Uint128 × Bool × Uint128 × Bool :=
  let (seedLeft, _, tLeft, seedRight, _, tRight) := splitDcfSeed prg seed
  (seedLeft, tLeft, seedRight, tRight)

/-- The left and right value seed of `SplitDcfSeed`. -/
def dcfVSeeds (seed : Uint128) : Uint128 × Uint128 :=
  let (_, vSeedLeft, _, _, vSeedRight, _) := splitDcfSeed prg seed
  (vSeedLeft, vSeedRight)

/-- The variables of `DcfKeyGen` that its loop changes: `seeds_working`, `t_working`,
`v_working` and the correction words of the first key. -/
structure DcfWork (N : ℕ) extends LevelState where
  v : GE2n N
  cws : List DcfKey.CW

/-- The working state before the first level. -/
def DcfWork.init (N : ℕ) (firstMk secondMk : Uint128) (termLevel : ℕ) : DcfWork N :=
  { seed0 := firstMk, seed1 := secondMk, t0 := false, t1 := true, v := ⟨0⟩,
    cws := List.replicate termLevel {} }

/-- The value correction of a level and the next `v_working`. -/
def dcfKeyGenValue (alphaBit : Bool) (beta : GE2n N) (s : DcfWork N) : GE2n N × GE2n N :=
  let (vSeedLeft0, vSeedRight0) := dcfVSeeds prg s.seed0
  let (vSeedLeft1, vSeedRight1) := dcfVSeeds prg s.seed1
  let prgLose0 := dcfPRG prg N (if alphaBit then vSeedLeft0 else vSeedRight0)
  let prgLose1 := dcfPRG prg N (if alphaBit then vSeedLeft1 else vSeedRight1)
  let prgKeep0 := dcfPRG prg N (if alphaBit then vSeedRight0 else vSeedLeft0)
  let prgKeep1 := dcfPRG prg N (if alphaBit then vSeedRight1 else vSeedLeft1)
  let cwV := prgLose1 + prgLose0.getReverse + s.v.getReverse
  if s.t1 then
    let cwV := cwV.getReverse
    let cwV := if alphaBit then cwV + beta.getReverse else cwV
    (cwV, s.v + (prgKeep1.getReverse + prgKeep0 + cwV.getReverse))
  else
    let cwV := if alphaBit then cwV + beta else cwV
    (cwV, s.v + (prgKeep1.getReverse + prgKeep0 + cwV))

/-- One iteration of the loop of `DcfKeyGen`. -/
def dcfKeyGenStep (alpha : GE2n M) (beta : GE2n N) (i : ℕ) (s : DcfWork N) :
    Except Exception (DcfWork N) := do
  let alphaBit ← alpha.getBit (M - i - 1)
  let (cwSeed, cwTLeft, cwTRight, next) := keyGenLevel (dcfSeeds prg) alphaBit s.toLevelState
  let (cwV, v) := dcfKeyGenValue prg alphaBit beta s
  let cw ← vecGet s.cws i
  let base ← (cw.toCW.setSeed cwSeed).setLT (toUint8 cwTLeft)
  let base ← base.setRT (toUint8 cwTRight)
  let cws ← vecSet s.cws i { base with v := cwV.getVal }
  pure { next with v := v, cws := cws }

/-- `DcfKeyGen<M, N>`: the two keys. -/
def dcfKeyGen (alpha : GE2n M) (beta : GE2n N) (firstMk secondMk : Uint128) :
    Except Exception (DcfKey × DcfKey) := do
  let firstKey : DcfKey := { rank := false, mseed := firstMk }
  let secondKey : DcfKey := { rank := true, mseed := secondMk }
  let s ← forLoop M (dcfKeyGenStep prg alpha beta) (.init N firstMk secondMk M)
  let prg0 := dcfPRG prg N s.seed0
  let prg1 := dcfPRG prg N s.seed1
  enforce (firstKey.lastCwVec = []) "first_key->last_cw_vec.empty()" ""
  enforce (secondKey.lastCwVec = []) "second_key->last_cw_vec.empty()" ""
  let lastCw := prg0.getReverse + prg1 + s.v.getReverse
  let lastCw := if s.t1 then lastCw.getReverse else lastCw
  pure ({ firstKey with cwsVec := s.cws, lastCwVec := [lastCw.getVal] },
    { secondKey with cwsVec := s.cws, lastCwVec := [lastCw.getVal] })

/-- What `DcfEval` adds to `*out` for the expanded value `value` and the correction `cw`. -/
def dcfTerm (rank t : Bool) (value cw : GE2n N) : GE2n N :=
  if t then if rank then (value + cw).getReverse else value + cw
  else if rank then value.getReverse else value

/-- One iteration of the loop of `DcfEval`; the state is `seed_working`, `t_working` and
`*out`. -/
def dcfEvalStep (key : DcfKey) (input : GE2n M) (i : ℕ) (s : Uint128 × Bool × GE2n N) :
    Except Exception (Uint128 × Bool × GE2n N) := do
  let (seed, t, out) := s
  let cw ← vecGet key.cwsVec i
  let (seedLeft, tLeft, seedRight, tRight) := correctedChildren (dcfSeeds prg) cw.toCW seed t
  let (vSeedLeft, vSeedRight) := dcfVSeeds prg seed
  let bit ← input.getBit (M - i - 1)
  if bit then
    pure (seedRight, tRight, out + dcfTerm key.rank t (dcfPRG prg N vSeedRight) ⟨cw.v⟩)
  else
    pure (seedLeft, tLeft, out + dcfTerm key.rank t (dcfPRG prg N vSeedLeft) ⟨cw.v⟩)

/-- `DcfEval<M, N>`. -/
def dcfEval (key : DcfKey) (input : GE2n M) : Except Exception (GE2n N) := do
  let (seed, t, out) ← forLoop M (dcfEvalStep prg key input) (key.mseed, key.rank, ⟨0⟩)
  let value := dcfPRG prg N seed
  -- the last correction word is read only where it is added
  let lastCw ← if t then vecGet key.lastCwVec 0 else pure 0
  pure (out + dcfTerm key.rank t value ⟨lastCw⟩)

end Model

section Tree

variable (prg : Prg) {M N : ℕ}

/-- The directions that an input selects, most significant bit first. -/
def dcfDir (a : GE2n M) (i : ℕ) : Bool := a.store.getLsbD (M - i - 1)

/-- The value of the edge from a seed in direction `d`. -/
def dcfVal (N : ℕ) (seed : Uint128) (d : Bool) : ZMod (2 ^ N) :=
  (dcfPRG prg N (if d then (dcfVSeeds prg seed).2 else (dcfVSeeds prg seed).1)).toZMod

/-- The sign with which the party of the given rank adds its values. -/
def signed (rank : Bool) (x : ZMod (2 ^ N)) : ZMod (2 ^ N) := if rank then -x else x

theorem signed_add (rank : Bool) (x y : ZMod (2 ^ N)) :
    signed rank (x + y) = signed rank x + signed rank y := by
  cases rank with
  | false => rfl
  | true => simp [signed, add_comm]

theorem toZMod_dcfTerm (hN : N ≤ 128) (rank t : Bool) (value cw : GE2n N) :
    (dcfTerm rank t value cw).toZMod =
      signed rank (value.toZMod + if t then cw.toZMod else 0) := by
  cases rank <;> cases t <;>
    simp [dcfTerm, signed, GE2n.toZMod_add hN, GE2n.toZMod_getReverse hN]

/-- The value correction of a level and the next `v_working` are those of the tree. -/
theorem dcfKeyGenValue_eq (hN : N ≤ 128) (alphaBit : Bool) (beta : GE2n N) (s : DcfWork N) :
    let (c, v) := dcfKeyGenValue prg alphaBit beta s
    c.toZMod =
        valCorr (dcfVal prg N) beta.toZMod s.v.toZMod s.node0 s.node1 alphaBit ∧
      v.toZMod = s.v.toZMod + edgeDiff (dcfVal prg N) s.node0 s.node1 alphaBit c.toZMod := by
  have hadd := GE2n.toZMod_add hN
  have hrev := GE2n.toZMod_getReverse hN
  cases ht : s.t1 <;> cases alphaBit <;>
    simp [dcfKeyGenValue, valCorr, edgeDiff, dcfVal, LevelState.node0, LevelState.node1, ht,
      hadd, hrev] <;> constructor <;> ring

variable (alpha : GE2n M) (beta : GE2n N) (mk0 mk1 : Uint128)

/-- The value corrections of the path to `alpha`. -/
def dcfPathVal : ℕ → ZMod (2 ^ N) :=
  pathVal (splitDir (dcfSeeds prg)) (dcfVal prg N) beta.toZMod (dcfDir alpha)
    (keyRoot false mk0) (keyRoot true mk1)

/-- The difference of the two parties along the path to `alpha`. -/
def dcfPathSum : ℕ → ZMod (2 ^ N) :=
  pathSum (splitDir (dcfSeeds prg)) (dcfVal prg N) beta.toZMod (dcfDir alpha)
    (keyRoot false mk0) (keyRoot true mk1)

/-- What a party collects along the directions `d`. -/
def dcfWalkSum (d : ℕ → Bool) (rank : Bool) : ℕ → ZMod (2 ^ N) :=
  walkSum (splitDir (dcfSeeds prg)) (dcfVal prg N) (keyCorr (dcfSeeds prg) (dcfDir alpha) mk0 mk1)
    (dcfPathVal prg alpha beta mk0 mk1) d (keyRoot rank (if rank then mk1 else mk0))

/-- The correction words of a key are, level by level, those of the path to `alpha`. -/
def DcfCwsOnPath (n : ℕ) (cws : List DcfKey.CW) : Prop :=
  ∀ j < n, ∃ c, cws[j]? = some c ∧
    c.toCW.toCorr = keyCorr (dcfSeeds prg) (dcfDir alpha) mk0 mk1 j ∧
    (⟨c.v⟩ : GE2n N).toZMod = dcfPathVal prg alpha beta mk0 mk1 j

theorem dcfKeyGenStep_ok (hM : M ≤ 128) (hN : N ≤ 128) {i : ℕ} (hi : i < M) {s : DcfWork N}
    (hlen : i < s.cws.length) :
    ∃ s' c, dcfKeyGenStep prg alpha beta i s = .ok s' ∧ s'.cws = s.cws.set i c ∧
      c.toCW.toCorr = corr (splitDir (dcfSeeds prg)) s.node0 s.node1 (dcfDir alpha i) ∧
      (⟨c.v⟩ : GE2n N).toZMod =
        valCorr (dcfVal prg N) beta.toZMod s.v.toZMod s.node0 s.node1 (dcfDir alpha i) ∧
      s'.toLevelState = (keyGenLevel (dcfSeeds prg) (dcfDir alpha i) s.toLevelState).2.2.2 ∧
      s'.v.toZMod = s.v.toZMod + edgeDiff (dcfVal prg N) s.node0 s.node1 (dcfDir alpha i)
        (⟨c.v⟩ : GE2n N).toZMod := by
  have hget : vecGet s.cws i = .ok s.cws[i] :=
    vecGet_of_getElem? (List.getElem?_eq_getElem hlen)
  have hval := dcfKeyGenValue_eq prg hN (dcfDir alpha i) beta s
  rw [← keyGenLevel_corr]
  generalize hout : keyGenLevel (dcfSeeds prg) (dcfDir alpha i) s.toLevelState = out
  generalize hcv : dcfKeyGenValue prg (dcfDir alpha i) beta s = cv at hval
  obtain ⟨cwSeed, cwTLeft, cwTRight, next⟩ := out
  obtain ⟨cwV, v⟩ := cv
  obtain ⟨c1, c2, h1, h2, hc⟩ := s.cws[i].toCW.set_ok cwSeed cwTLeft cwTRight
  have hv : (⟨cwV.getVal⟩ : GE2n N).toZMod = cwV.toZMod := GE2n.toZMod_mk_getVal hN cwV
  refine ⟨{ next with v := v, cws := s.cws.set i { c2 with v := cwV.getVal } },
    { c2 with v := cwV.getVal }, ?_, rfl, hc, hv.trans hval.1, rfl, ?_⟩
  · rw [dcfDir] at hout hcv
    simp only [dcfKeyGenStep, GE2n.getBit_of_lt alpha (show M - i - 1 < 128 by omega), ok_bind,
      hout, hcv, hget, h1, h2, vecSet_of_lt hlen]
    rfl
  · rw [hv]
    exact hval.2

/-- **The loop of `DcfKeyGen`** returns, with the correction words of the path to `alpha`
written and the working state at the end of that path. -/
theorem dcfKeyGenLevels_ok (hM : M ≤ 128) (hN : N ≤ 128) :
    ∃ s, forLoop M (dcfKeyGenStep prg alpha beta) (.init N mk0 mk1 M) = .ok s ∧
      s.cws.length = M ∧ DcfCwsOnPath prg alpha beta mk0 mk1 M s.cws ∧
      keyPath (dcfSeeds prg) (dcfDir alpha) mk0 mk1 M = (s.node0, s.node1) ∧
      s.v.toZMod = dcfPathSum prg alpha beta mk0 mk1 M := by
  refine forLoop_ok (fun i (s : DcfWork N) => s.cws.length = M ∧
    DcfCwsOnPath prg alpha beta mk0 mk1 i s.cws ∧
    keyPath (dcfSeeds prg) (dcfDir alpha) mk0 mk1 i = (s.node0, s.node1) ∧
    s.v.toZMod = dcfPathSum prg alpha beta mk0 mk1 i)
    ⟨by simp [DcfWork.init], fun j hj => absurd hj (by omega), rfl, GE2n.toZMod_zero⟩ ?_
  rintro i hi s ⟨hlen, hcws, hpath, hsum⟩
  obtain ⟨s', c, hs', hset, hc, hv, hnext, hsum'⟩ :=
    dcfKeyGenStep_ok prg alpha beta hM hN hi (hlen ▸ hi)
  rw [keyPath] at hpath
  rw [dcfPathSum] at hsum
  refine ⟨s', hs', by simp [hset, hlen], fun j hj => ?_, ?_, ?_⟩
  · rcases Nat.lt_succ_iff_lt_or_eq.mp hj with hlt | rfl
    · rw [hset, List.getElem?_set_ne (by omega)]
      exact hcws j hlt
    · refine ⟨c, by rw [hset, List.getElem?_set_self (hlen ▸ hi)], ?_, ?_⟩
      · rw [hc, keyCorr, pathCorr, hpath]
      · rw [hv, dcfPathVal, pathVal, hpath, ← hsum]
  · rw [keyPath, path, hpath, hnext, keyGenLevel_node0, keyGenLevel_node1]
  · rw [hsum', hv, dcfPathSum, pathSum, hpath, ← hsum]

/-- **The loop of `DcfEval`** returns the node at the end of the walk along its input, and the
signed sum of what the walk collects. -/
theorem dcfEvalLevels_ok (hM : M ≤ 128) (hN : N ≤ 128) (key : DcfKey)
    (hcws : DcfCwsOnPath prg alpha beta mk0 mk1 M key.cwsVec)
    (hseed : key.mseed = if key.rank then mk1 else mk0) (input : GE2n M) :
    let walk := keyWalk (dcfSeeds prg) (dcfDir alpha) mk0 mk1 (dcfDir input) key.rank
    ∃ s, forLoop M (dcfEvalStep prg key input) (key.mseed, key.rank, ⟨0⟩) = .ok s ∧
      s.1 = (walk M).seed ∧ s.2.1 = (walk M).bit ∧
      s.2.2.toZMod =
        signed key.rank (dcfWalkSum prg alpha beta mk0 mk1 (dcfDir input) key.rank M) := by
  intro walk
  refine forLoop_ok (fun i (s : Uint128 × Bool × GE2n N) =>
    s.1 = (walk i).seed ∧ s.2.1 = (walk i).bit ∧ s.2.2.toZMod =
      signed key.rank (dcfWalkSum prg alpha beta mk0 mk1 (dcfDir input) key.rank i))
    ⟨hseed, rfl, by cases key.rank <;> simp [signed, dcfWalkSum, walkSum]⟩ ?_
  rintro i hi ⟨seed, t, out⟩ ⟨hs, ht, hout⟩
  obtain rfl : seed = (walk i).seed := hs
  obtain rfl : t = (walk i).bit := ht
  obtain ⟨c, hget, hc, hv⟩ := hcws i hi
  -- the sum grows by the term of the edge that the input selects
  have hterm : ∀ value : GE2n N, value.toZMod = dcfVal prg N (walk i).seed (dcfDir input i) →
      (out + dcfTerm key.rank (walk i).bit value ⟨c.v⟩).toZMod = signed key.rank
        (dcfWalkSum prg alpha beta mk0 mk1 (dcfDir input) key.rank (i + 1)) := by
    intro value hvalue
    rw [GE2n.toZMod_add hN, hout, toZMod_dcfTerm hN, hv, hvalue, ← signed_add]
    rfl
  rw [dcfEvalStep, vecGet_of_getElem? hget]
  simp only [correctedChildren_eq, GE2n.getBit_of_lt input (show M - i - 1 < 128 by omega),
    ok_bind, hc]
  have hdir : dcfDir input i = input.store.getLsbD (M - i - 1) := rfl
  cases h : input.store.getLsbD (M - i - 1) <;> rw [h] at hdir
  · refine ⟨_, rfl, ?_, ?_, hterm _ (by rw [hdir]; rfl)⟩ <;>
      simp [walk, keyWalk, CorrectedTree.walk, hdir]
  · refine ⟨_, rfl, ?_, ?_, hterm _ (by rw [hdir]; rfl)⟩ <;>
      simp [walk, keyWalk, CorrectedTree.walk, hdir]

/-- **`DcfKeyGen`** returns: the keys share the correction words of the path to `alpha` and
the last correction word, which cancels what is left at the end of that path. -/
theorem dcfKeyGen_ok (hM : M ≤ 128) (hN : N ≤ 128) :
    ∃ cws cw, dcfKeyGen prg alpha beta mk0 mk1 =
        .ok ({ cwsVec := cws, lastCwVec := [cw], rank := false, mseed := mk0 },
          { cwsVec := cws, lastCwVec := [cw], rank := true, mseed := mk1 }) ∧
      DcfCwsOnPath prg alpha beta mk0 mk1 M cws ∧
      ∀ n0 n1, keyPath (dcfSeeds prg) (dcfDir alpha) mk0 mk1 M = (n0, n1) →
        (if n1.bit then -(⟨cw⟩ : GE2n N).toZMod else (⟨cw⟩ : GE2n N).toZMod) =
          -(dcfPRG prg N n0.seed).toZMod + (dcfPRG prg N n1.seed).toZMod -
            dcfPathSum prg alpha beta mk0 mk1 M := by
  obtain ⟨s, hs, -, hcws, hpath, hsum⟩ := dcfKeyGenLevels_ok prg alpha beta mk0 mk1 hM hN
  let lastCw := (dcfPRG prg N s.seed0).getReverse + dcfPRG prg N s.seed1 + s.v.getReverse
  refine ⟨s.cws, (if s.t1 then lastCw.getReverse else lastCw).getVal, ?_, hcws, ?_⟩
  · simp only [dcfKeyGen, hs]
    rfl
  · rintro n0 n1 h
    obtain ⟨rfl, rfl⟩ := Prod.ext_iff.mp (hpath.symm.trans h)
    rw [GE2n.toZMod_mk_getVal hN, ← hsum]
    cases ht : s.t1 <;> simp [LevelState.node0, LevelState.node1, ht, lastCw,
      GE2n.toZMod_add hN, GE2n.toZMod_getReverse hN] <;> ring

/-- **`DcfEval`** of a key with the correction words of the path to `alpha` returns the signed
sum of what its walk collects and of the value at its end. -/
theorem dcfEval_ok (hM : M ≤ 128) (hN : N ≤ 128) {cws : List DcfKey.CW}
    (hcws : DcfCwsOnPath prg alpha beta mk0 mk1 M cws) (cw : Uint128) (rank : Bool)
    (x : GE2n M) :
    let node := keyWalk (dcfSeeds prg) (dcfDir alpha) mk0 mk1 (dcfDir x) rank M
    ∃ y : GE2n N, dcfEval prg { cwsVec := cws, lastCwVec := [cw], rank := rank,
                                mseed := if rank then mk1 else mk0 } x = .ok y ∧
      y.toZMod = signed rank (dcfWalkSum prg alpha beta mk0 mk1 (dcfDir x) rank M +
        ((dcfPRG prg N node.seed).toZMod + if node.bit then (⟨cw⟩ : GE2n N).toZMod else 0)) := by
  intro node
  obtain ⟨⟨seed, t, out⟩, hs, hseed, ht, hout⟩ :=
    dcfEvalLevels_ok prg alpha beta mk0 mk1 hM hN
      { cwsVec := cws, lastCwVec := [cw], rank := rank, mseed := if rank then mk1 else mk0 }
      hcws rfl x
  obtain rfl : seed = node.seed := hseed
  obtain rfl : t = node.bit := ht
  refine ⟨out + dcfTerm rank node.bit (dcfPRG prg N node.seed) ⟨if node.bit then cw else 0⟩,
    ?_, ?_⟩
  · rw [dcfEval, hs]
    cases node.bit <;> rfl
  · rw [GE2n.toZMod_add hN, hout, toZMod_dcfTerm hN, ← signed_add]
    cases node.bit <;> rfl

/-- The first bit, from the most significant one on, in which two values differ decides how
they compare. -/
theorem getVal_lt_iff (hM : M ≤ 128) {x a : GE2n M} {j : ℕ} (hj : j < M)
    (hagree : ∀ k < j, dcfDir x k = dcfDir a k) (hleave : dcfDir x j ≠ dcfDir a j) :
    x.getVal.toNat < a.getVal.toNat ↔ dcfDir a j = true := by
  have hbit : ∀ (b : GE2n M), b.getVal.toNat.testBit (M - j - 1) = dcfDir b j := fun b => by
    rw [GE2n.testBit_getVal hM, decide_eq_true (by omega), Bool.true_and, dcfDir]
  have habove : ∀ i, M - j - 1 < i → x.getVal.toNat.testBit i = a.getVal.toNat.testBit i := by
    intro i hi
    rw [GE2n.testBit_getVal hM, GE2n.testBit_getVal hM]
    by_cases hiM : i < M
    · have := hagree (M - i - 1) (by omega)
      rw [dcfDir, dcfDir, show M - (M - i - 1) - 1 = i by omega] at this
      rw [this]
    · simp [hiM]
  cases ha : dcfDir a j <;> simp only [iff_true, Bool.false_eq_true, iff_false, not_lt]
  · refine (Nat.lt_of_testBit (M - j - 1) ?_ ?_ fun i hi => (habove i hi).symm).le
    · rw [hbit, ha]
    · rw [hbit]
      simpa [ha] using hleave
  · refine Nat.lt_of_testBit (M - j - 1) ?_ ?_ habove
    · rw [hbit]
      simpa [ha] using hleave
    · rw [hbit, ha]

/-- **Correctness of the distributed comparison function.** The keys of `DcfKeyGen` evaluate to
shares of `beta` at the inputs below `alpha`, and to shares of zero elsewhere. -/
theorem dcfEval_add_dcfEval (hM : M ≤ 128) (hN : N ≤ 128) (alpha : GE2n M) (beta : GE2n N)
    (firstMk secondMk : Uint128) (x : GE2n M) :
    ∃ (k0 k1 : DcfKey) (y0 y1 : GE2n N),
      dcfKeyGen prg alpha beta firstMk secondMk = .ok (k0, k1) ∧
      dcfEval prg k0 x = .ok y0 ∧ dcfEval prg k1 x = .ok y1 ∧
      (y0 + y1).getVal = if x.getVal.toNat < alpha.getVal.toNat then beta.getVal else 0 := by
  obtain ⟨cws, cw, hkeys, hcws, hcw⟩ := dcfKeyGen_ok prg alpha beta firstMk secondMk hM hN
  obtain ⟨y0, h0, hy0⟩ := dcfEval_ok prg alpha beta firstMk secondMk hM hN hcws cw false x
  obtain ⟨y1, h1, hy1⟩ := dcfEval_ok prg alpha beta firstMk secondMk hM hN hcws cw true x
  refine ⟨_, _, y0, y1, hkeys, h0, h1, ?_⟩
  by_cases hagree : ∀ j < M, dcfDir x j = dcfDir alpha j
  · -- the input is `alpha`: the last correction word cancels the sums
    have hx : x.getVal.toNat = alpha.getVal.toNat := by
      congr 1
      refine (GE2n.getVal_eq_iff_getLsbD hM x alpha).mpr fun i hi => ?_
      have := hagree (M - i - 1) (by omega)
      rwa [dcfDir, dcfDir, show M - (M - i - 1) - 1 = i by omega] at this
    obtain ⟨hend, hbit⟩ := keyWalk_of_agree (dcfSeeds prg) firstMk secondMk hagree
    have hlast := hcw _ _ hend
    have hsum : dcfWalkSum prg alpha beta firstMk secondMk (dcfDir x) false M -
        dcfWalkSum prg alpha beta firstMk secondMk (dcfDir x) true M =
          dcfPathSum prg alpha beta firstMk secondMk M :=
      walkSum_of_agree (splitDir (dcfSeeds prg)) (dcfVal prg N) beta.toZMod rfl hagree
    rw [if_neg (by omega), GE2n.getVal_eq_zero_iff hN, GE2n.toZMod_add hN, hy0, hy1]
    cases hb : (keyWalk (dcfSeeds prg) (dcfDir alpha) firstMk secondMk (dcfDir x) false M).bit <;>
      rw [hb] at hbit <;> simp only [hbit, signed, Bool.not_true, Bool.not_false, if_true,
        Bool.false_eq_true, if_false] at hlast ⊢ <;> linear_combination hsum + hlast
  · -- the walks part at the first bit that differs, and end on the same node
    have hmet := keyWalk_of_leave (dcfSeeds prg) firstMk secondMk hagree
    push Not at hagree
    obtain ⟨hj, hleave⟩ := Nat.find_spec hagree
    have hbefore : ∀ k < Nat.find hagree, dcfDir x k = dcfDir alpha k := fun k hk => by
      have := Nat.find_min hagree hk
      push Not at this
      exact this (by omega)
    have hsum : dcfWalkSum prg alpha beta firstMk secondMk (dcfDir x) false M -
        dcfWalkSum prg alpha beta firstMk secondMk (dcfDir x) true M =
          if dcfDir alpha (Nat.find hagree) then beta.toZMod else 0 :=
      walkSum_of_leave (splitDir (dcfSeeds prg)) (dcfVal prg N) beta.toZMod rfl hj hbefore hleave
    have htotal : y0.toZMod + y1.toZMod =
        if dcfDir alpha (Nat.find hagree) then beta.toZMod else 0 := by
      rw [hy0, hy1, hmet, ← hsum]
      simp only [signed, if_true, Bool.false_eq_true, if_false]
      ring
    simp only [getVal_lt_iff hM hj hbefore hleave]
    split
    · next h => rw [GE2n.getVal_eq_iff hN, GE2n.toZMod_add hN, htotal, if_pos h]
    · next h => rw [GE2n.getVal_eq_zero_iff hN, GE2n.toZMod_add hN, htotal, if_neg h]

end Tree

/-- A comparison function on bytes, at an input below `alpha`. -/
theorem dcfEval_add_dcfEval_byte :
    ∃ (k0 k1 : DcfKey) (y0 y1 : GE2n 64),
      dcfKeyGen (fun _ seed i => seed + i) (⟨5⟩ : GE2n 8) (⟨7⟩ : GE2n 64) 1 2 = .ok (k0, k1) ∧
      dcfEval (fun _ seed i => seed + i) k0 (⟨4⟩ : GE2n 8) = .ok y0 ∧
      dcfEval (fun _ seed i => seed + i) k1 (⟨4⟩ : GE2n 8) = .ok y1 ∧
      (y0 + y1).getVal = 7 :=
  dcfEval_add_dcfEval _ (by decide) (by decide) _ _ _ _ _

end Yacl.Crypto
