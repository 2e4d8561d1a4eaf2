import Yacl.Dpf.Level
import Yacl.Lib.Loop

/-!
# Distributed point functions

The model of `yacl/crypto/experimental/dpf/dpf.{h,cc}`: the keys, `DpfKeyGen` in both of its
modes, and `DpfEval`; `DpfEvalAll` is in `Yacl.Dpf.EvalAll`.

Both functions are loops over the levels of a tree of seeds. `dpfKeyGenLevels_ok` and
`dpfEvalLevels_ok` say what the loops do: key generation lays down the correction words of the
path to `alpha`, and evaluation is a walk corrected by them. What is left at the end of the
walk is one linear equation in `ZMod (2 ^ N)`, `dpfOutput_add`.
-/

open CorrectedTree Loop

namespace Yacl.Crypto

/-- `DpfKey`. -/
structure DpfKey where
  enableEvalall : Bool := false
  cwsVec : List CW := []
  lastCwVec : List Uint128 := []
  rank : Bool := false
  mseed : Uint128 := 0
deriving DecidableEq

section Model

variable (prg : Prg) (lvl : ℕ → ℕ → ℕ) {M N : ℕ}

/-- `DpfPRG<N>`. -/
def dpfPRG (N : ℕ) (seed : Uint128) : GE2n N := ⟨prg 16 seed 0⟩

/-- `SplitDpfSeed`: the left seed and bit, then the right seed and bit. -/
def splitDpfSeed (seed : Uint128) : Uint128 × Bool × Uint128 × Bool :=
  let seedLeft := prg 48 seed 0
  let seedRight := prg 48 seed 1
  let tmp := prg 48 seed 2
  (seedLeft, (tmp >>> 1).getLsbD 0, seedRight, (tmp >>> 2).getLsbD 0)

/-- `GetTerminateLevel`. The value of the floating point expression `ceil(m - log(c / n))`,
with `c = 128`, is the parameter `lvl m n`. -/
def getTerminateLevel (enableEvalall : Bool) (m n : ℕ) : ℕ :=
  if !enableEvalall then m else min m (lvl m n)

/-! ### Key generation -/

/-- The variables of `DpfKeyGen` that its loop over the levels changes, with the correction
words of the first key. -/
structure DpfWork extends LevelState where
  cws : List CW

/-- The working state before the first level; the second control bit is set by definition. -/
def DpfWork.init (firstMk secondMk : Uint128) (termLevel : ℕ) : DpfWork :=
  { seed0 := firstMk, seed1 := secondMk, t0 := false, t1 := true,
    cws := List.replicate termLevel {} }

/-- One iteration of the loop of `DpfKeyGen` over the levels. -/
def dpfKeyGenStep (alpha : GE2n M) (i : ℕ) (s : DpfWork) : Except Exception DpfWork := do
  let alphaBit ← alpha.getBit i
  let (cwSeed, cwTLeft, cwTRight, next) := keyGenLevel (splitDpfSeed prg) alphaBit s.toLevelState
  let cw ← vecGet s.cws i
  let cw ← (cw.setSeed cwSeed).setLT (toUint8 cwTLeft)
  let cw ← cw.setRT (toUint8 cwTRight)
  let cws ← vecSet s.cws i cw
  pure { next with cws := cws }

/-- The single last correction word that `DpfKeyGen` writes without `enable_evalall`. -/
def dpfLastCw (t1 : Bool) (beta prg0 prg1 : GE2n N) : Uint128 :=
  let cw := (beta + prg0.getReverse + prg1).getVal
  if t1 then (⟨cw⟩ : GE2n N).getReverse.getVal else cw

/-- One iteration of the loop of `DpfKeyGen` that appends the last correction words when
`enable_evalall` is set; the state is `prg0`, `prg1` and `last_cw_vec`. -/
def dpfLastCwStep (beta : GE2n N) (t1 : Bool) (alphaPos : BitVec 32) (i : ℕ)
    (s : GE2n N × GE2n N × List Uint128) : GE2n N × GE2n N × List Uint128 :=
  let (prg0, prg1, lastCwVec) := s
  let lastCw :=
    if BitVec.ofNat 32 i = alphaPos then beta + prg0.getReverse + prg1
    else prg0.getReverse + prg1
  let cw := if t1 then lastCw.getReverse.getVal else lastCw.getVal
  (dpfPRG prg N prg0.getVal, dpfPRG prg N prg1.getVal, lastCwVec ++ [cw])

/-- `DpfKeyGen<M, N>`: the two keys. -/
def dpfKeyGen (alpha : GE2n M) (beta : GE2n N) (firstMk secondMk : Uint128)
    (enableEvalall : Bool) : Except Exception (DpfKey × DpfKey) := do
  let termLevel := getTerminateLevel lvl enableEvalall M N
  let firstKey : DpfKey := { rank := false, mseed := firstMk }
  let secondKey : DpfKey := { rank := true, mseed := secondMk }
  let s ← forLoop termLevel (dpfKeyGenStep prg alpha) (.init firstMk secondMk termLevel)
  let prg0 := dpfPRG prg N s.seed0
  let prg1 := dpfPRG prg N s.seed1
  enforce (firstKey.lastCwVec = []) "first_key->last_cw_vec.empty()" ""
  enforce (secondKey.lastCwVec = []) "second_key->last_cw_vec.empty()" ""
  if !enableEvalall then
    let cw := dpfLastCw s.t1 beta prg0 prg1
    pure ({ firstKey with cwsVec := s.cws, lastCwVec := [cw] },
      { secondKey with cwsVec := s.cws, lastCwVec := [cw] })
  else
    let alphaPos := (alpha.getVal >>> termLevel).setWidth 32
    let expandNum := shl32 1 (M - termLevel)
    -- the second key's correction words are assigned inside this loop, which runs at least
    -- once
    let (_, _, lastCwVec) :=
      iterLoop expandNum.toNat (dpfLastCwStep prg beta s.t1 alphaPos) (prg0, prg1, [])
    pure ({ firstKey with enableEvalall := true, cwsVec := s.cws, lastCwVec := lastCwVec },
      { secondKey with enableEvalall := true, cwsVec := s.cws, lastCwVec := lastCwVec })

/-! ### Evaluation -/

/-- One iteration of the loop of `DpfEval`; the state is `seed_working` and `t_working`. -/
def dpfEvalStep (key : DpfKey) (input : GE2n M) (i : ℕ) (s : Uint128 × Bool) :
    Except Exception (Uint128 × Bool) := do
  let cw ← vecGet key.cwsVec i
  let (seedLeft, tLeft, seedRight, tRight) := correctedChildren (splitDpfSeed prg) cw s.1 s.2
  let bit ← input.getBit i
  pure (if bit then (seedRight, tRight) else (seedLeft, tLeft))

/-- The output of a party from the expanded seed and the last correction word, as `DpfEval`
and `Traverse` compute it. -/
def dpfOutput (rank t : Bool) (value : GE2n N) (lastCw : Uint128) : GE2n N :=
  let tmp : GE2n N := ⟨if t then lastCw else 0⟩
  if rank then (value + tmp).getReverse else value + tmp

/-- `DpfEval<M, N>`. -/
def dpfEval (key : DpfKey) (input : GE2n M) : Except Exception (GE2n N) := do
  enforce (key.enableEvalall = false) "key.enable_evalall == false" ""
  let (seed, t) ← forLoop M (dpfEvalStep prg key input) (key.mseed, key.rank)
  let value := dpfPRG prg N seed
  let lastCw ← vecGet key.lastCwVec 0
  pure ⟨(dpfOutput key.rank t value lastCw).getVal⟩

end Model

/-! ### The loops over the levels -/

section Tree

variable (prg : Prg) (lvl : ℕ → ℕ → ℕ) {M N : ℕ}

/-- The directions that an input selects, least significant bit first. -/
def dpfDir (a : GE2n M) (i : ℕ) : Bool := a.store.getLsbD i

/-- One level of key generation writes the correction word of the two working nodes that
keeps the direction of `alpha`, and moves both nodes in that direction. -/
theorem dpfKeyGenStep_ok (alpha : GE2n M) {i : ℕ} (hi : i < 128) {s : DpfWork}
    (hlen : i < s.cws.length) :
    ∃ s' c, dpfKeyGenStep prg alpha i s = .ok s' ∧ s'.cws = s.cws.set i c ∧
      c.toCorr = corr (splitDir (splitDpfSeed prg)) s.node0 s.node1 (dpfDir alpha i) ∧
      s'.toLevelState =
        (keyGenLevel (splitDpfSeed prg) (dpfDir alpha i) s.toLevelState).2.2.2 := by
  have hget : vecGet s.cws i = .ok s.cws[i] :=
    vecGet_of_getElem? (List.getElem?_eq_getElem hlen)
  rw [← keyGenLevel_corr]
  generalize hout : keyGenLevel (splitDpfSeed prg) (dpfDir alpha i) s.toLevelState = out
  obtain ⟨cwSeed, cwTLeft, cwTRight, next⟩ := out
  obtain ⟨c1, c2, h1, h2, hc⟩ := s.cws[i].set_ok cwSeed cwTLeft cwTRight
  refine ⟨{ next with cws := s.cws.set i c2 }, c2, ?_, rfl, hc, rfl⟩
  rw [dpfDir] at hout
  simp only [dpfKeyGenStep, GE2n.getBit_of_lt alpha hi, ok_bind, hout, hget, h1, h2,
    vecSet_of_lt hlen]
  rfl

/-- **The loop of `DpfKeyGen` over the levels** returns, with the correction words of the
path to `alpha` written and the working nodes at the end of that path. -/
theorem dpfKeyGenLevels_ok (alpha : GE2n M) (mk0 mk1 : Uint128) {n : ℕ} (hn : n ≤ 128) :
    ∃ s, forLoop n (dpfKeyGenStep prg alpha) (.init mk0 mk1 n) = .ok s ∧ s.cws.length = n ∧
      CwsOnPath (splitDpfSeed prg) (dpfDir alpha) mk0 mk1 n s.cws ∧
      keyPath (splitDpfSeed prg) (dpfDir alpha) mk0 mk1 n = (s.node0, s.node1) := by
  refine forLoop_ok (fun i (s : DpfWork) => s.cws.length = n ∧
    CwsOnPath (splitDpfSeed prg) (dpfDir alpha) mk0 mk1 i s.cws ∧
    keyPath (splitDpfSeed prg) (dpfDir alpha) mk0 mk1 i = (s.node0, s.node1))
    ⟨by simp [DpfWork.init], fun j hj => absurd hj (by omega), rfl⟩ ?_
  rintro i hi s ⟨hlen, hcws, hpath⟩
  obtain ⟨s', c, hs', hset, hc, hnext⟩ :=
    dpfKeyGenStep_ok prg alpha (by omega) (hlen ▸ hi)
  rw [keyPath] at hpath
  refine ⟨s', hs', by simp [hset, hlen], fun j hj => ?_, ?_⟩
  · rcases Nat.lt_succ_iff_lt_or_eq.mp hj with hlt | rfl
    · rw [hset, List.getElem?_set_ne (by omega)]
      exact hcws j hlt
    · refine ⟨c, by rw [hset, List.getElem?_set_self (hlen ▸ hi)], ?_⟩
      rw [hc, keyCorr, pathCorr, hpath]
  · rw [keyPath, path, hpath, hnext, keyGenLevel_node0, keyGenLevel_node1]

/-- **The loop of `DpfEval`** returns the node at the end of the walk along its input. -/
theorem dpfEvalLevels_ok {alpha : GE2n M} {mk0 mk1 : Uint128} {key : DpfKey} {n : ℕ}
    (hn : n ≤ 128) (hcws : CwsOnPath (splitDpfSeed prg) (dpfDir alpha) mk0 mk1 n key.cwsVec)
    (hseed : key.mseed = if key.rank then mk1 else mk0) (input : GE2n M) :
    let walk := keyWalk (splitDpfSeed prg) (dpfDir alpha) mk0 mk1 (dpfDir input) key.rank
    forLoop n (dpfEvalStep prg key input) (key.mseed, key.rank) =
      .ok ((walk n).seed, (walk n).bit) := by
  intro walk
  have hroot : (key.mseed, key.rank) = ((walk 0).seed, (walk 0).bit) := by rw [hseed]; rfl
  rw [hroot]
  refine forLoop_eq_ok (fun i => ((walk i).seed, (walk i).bit)) fun i hi => ?_
  obtain ⟨c, hget, hc⟩ := hcws i hi
  rw [dpfEvalStep, vecGet_of_getElem? hget, GE2n.getBit_of_lt input (by omega)]
  simp only [correctedChildren_eq, ok_bind, hc]
  cases h : input.store.getLsbD i <;>
    simp [walk, keyWalk, CorrectedTree.walk, dpfDir, h] <;> rfl

theorem dpfOutput_add_self (hN : N ≤ 128) (t : Bool) (value : GE2n N) (cw : Uint128) :
    (dpfOutput false t value cw).toZMod + (dpfOutput true t value cw).toZMod = 0 := by
  simp [dpfOutput, GE2n.toZMod_getReverse hN]

/-- Nodes with opposite control bits give outputs that add up to `b`, when the last
correction word is `b - v0 + v1` up to the sign that the second control bit selects. -/
theorem dpfOutput_add (hN : N ≤ 128) {t0 t1 : Bool} (ht : t1 = !t0) {v0 v1 : GE2n N}
    {b : ZMod (2 ^ N)} {cw : Uint128}
    (hcw : (⟨cw⟩ : GE2n N).toZMod =
      if t1 then -(b - v0.toZMod + v1.toZMod) else b - v0.toZMod + v1.toZMod) :
    (dpfOutput false t0 v0 cw).toZMod + (dpfOutput true t1 v1 cw).toZMod = b := by
  subst ht
  cases t0 <;> simp [dpfOutput, GE2n.toZMod_getReverse hN, GE2n.toZMod_add hN] at hcw ⊢ <;>
    rw [hcw] <;> ring

theorem toZMod_dpfLastCw (hN : N ≤ 128) (t1 : Bool) (beta v0 v1 : GE2n N) :
    (⟨dpfLastCw t1 beta v0 v1⟩ : GE2n N).toZMod =
      if t1 then -(beta.toZMod - v0.toZMod + v1.toZMod)
      else beta.toZMod - v0.toZMod + v1.toZMod := by
  cases t1 <;>
    simp [dpfLastCw, GE2n.toZMod_mk_getVal hN, GE2n.toZMod_getReverse hN, GE2n.toZMod_add hN] <;>
    ring

/-- **Key generation without `enable_evalall`** returns: the two keys share the correction
words of the path to `alpha` and the last correction word, which fits the values at the end
of that path. -/
theorem dpfKeyGen_false_ok (hM : M ≤ 64) (hN : N ≤ 128) (alpha : GE2n M) (beta : GE2n N)
    (mk0 mk1 : Uint128) :
    ∃ cws cw, dpfKeyGen prg lvl alpha beta mk0 mk1 false =
        .ok ({ cwsVec := cws, lastCwVec := [cw], rank := false, mseed := mk0 },
          { cwsVec := cws, lastCwVec := [cw], rank := true, mseed := mk1 }) ∧
      CwsOnPath (splitDpfSeed prg) (dpfDir alpha) mk0 mk1 M cws ∧
      ∀ n0 n1, keyPath (splitDpfSeed prg) (dpfDir alpha) mk0 mk1 M =
          (n0, n1) →
        (⟨cw⟩ : GE2n N).toZMod =
          if n1.bit then -(beta.toZMod - (dpfPRG prg N n0.seed).toZMod +
            (dpfPRG prg N n1.seed).toZMod)
          else beta.toZMod - (dpfPRG prg N n0.seed).toZMod + (dpfPRG prg N n1.seed).toZMod := by
  obtain ⟨s, hs, -, hcws, hpath⟩ := dpfKeyGenLevels_ok prg alpha mk0 mk1 (show M ≤ 128 by omega)
  refine ⟨s.cws, dpfLastCw s.t1 beta (dpfPRG prg N s.seed0) (dpfPRG prg N s.seed1), ?_, hcws, ?_⟩
  · simp only [dpfKeyGen, getTerminateLevel, Bool.not_false, if_true, hs]
    rfl
  · rintro n0 n1 h
    obtain ⟨rfl, rfl⟩ := Prod.ext_iff.mp (hpath.symm.trans h)
    exact toZMod_dpfLastCw hN _ beta _ _

/-- A key with the correction words of the path to `alpha` evaluates to the output at the end
of the walk along its input. -/
theorem dpfEval_ok (hM : M ≤ 64) {alpha : GE2n M} {mk0 mk1 : Uint128} {cws : List CW}
    (hcws : CwsOnPath (splitDpfSeed prg) (dpfDir alpha) mk0 mk1 M cws) (cw : Uint128) (rank : Bool)
    (x : GE2n M) :
    let node := keyWalk (splitDpfSeed prg) (dpfDir alpha) mk0 mk1 (dpfDir x) rank M
    dpfEval prg { cwsVec := cws, lastCwVec := [cw], rank := rank,
                  mseed := if rank then mk1 else mk0 } x =
      .ok (⟨(dpfOutput rank node.bit (dpfPRG prg N node.seed) cw).getVal⟩ : GE2n N) := by
  intro node
  rw [dpfEval, dpfEvalLevels_ok prg (by omega) hcws rfl x]
  rfl

/-- **Correctness of the distributed point function.** The keys of `DpfKeyGen` evaluate to
shares of `beta` at the inputs congruent to `alpha`, and to shares of zero elsewhere. -/
theorem dpfEval_add_dpfEval (hM : M ≤ 64) (hN : N ≤ 128) (alpha : GE2n M) (beta : GE2n N)
    (firstMk secondMk : Uint128) (x : GE2n M) :
    ∃ (k0 k1 : DpfKey) (y0 y1 : GE2n N),
      dpfKeyGen prg lvl alpha beta firstMk secondMk false = .ok (k0, k1) ∧
      dpfEval prg k0 x = .ok y0 ∧ dpfEval prg k1 x = .ok y1 ∧
      (y0 + y1).getVal = if x.getVal = alpha.getVal then beta.getVal else 0 := by
  obtain ⟨cws, cw, hkeys, hcws, hcw⟩ :=
    dpfKeyGen_false_ok prg lvl hM hN alpha beta firstMk secondMk
  refine ⟨_, _, _, _, hkeys, dpfEval_ok prg hM hcws cw false x,
    dpfEval_ok prg hM hcws cw true x, ?_⟩
  have hdir : x.getVal = alpha.getVal ↔ ∀ j < M, dpfDir x j = dpfDir alpha j :=
    GE2n.getVal_eq_iff_getLsbD (by omega) x alpha
  split
  · next hx =>
    obtain ⟨hend, hbit⟩ := keyWalk_of_agree (splitDpfSeed prg) firstMk secondMk (hdir.mp hx)
    rw [GE2n.getVal_eq_iff hN, GE2n.toZMod_add hN, GE2n.toZMod_mk_getVal hN,
      GE2n.toZMod_mk_getVal hN]
    exact dpfOutput_add hN hbit (hcw _ _ hend)
  · next hx =>
    rw [GE2n.getVal_eq_zero_iff hN, GE2n.toZMod_add hN, GE2n.toZMod_mk_getVal hN,
      GE2n.toZMod_mk_getVal hN,
      keyWalk_of_leave (splitDpfSeed prg) firstMk secondMk fun h => hx (hdir.mpr h)]
    exact dpfOutput_add_self hN _ _ _

end Tree

/-- A point function on bytes, at the point where it is not zero. -/
theorem dpfEval_add_dpfEval_byte :
    ∃ (k0 k1 : DpfKey) (y0 y1 : GE2n 64),
      dpfKeyGen (fun _ seed i => seed + i) (fun m _ => m) (⟨5⟩ : GE2n 8)
        (⟨7⟩ : GE2n 64) 1 2 false = .ok (k0, k1) ∧
      dpfEval (fun _ seed i => seed + i) k0 (⟨256 + 5⟩ : GE2n 8) = .ok y0 ∧
      dpfEval (fun _ seed i => seed + i) k1 (⟨256 + 5⟩ : GE2n 8) = .ok y1 ∧
      (y0 + y1).getVal = 7 :=
  dpfEval_add_dpfEval _ _ (by decide) (by decide) _ _ _ _ _

end Yacl.Crypto
