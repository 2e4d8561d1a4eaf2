import Yacl.Dpf.GE2n
import Yacl.Lib.CorrectedTree

/-!
# One level of a function secret sharing key

What `dpf.{h,cc}` and `dcf.{h,cc}` have in common: the correction word of a level, how
`DpfKeyGen` and `DcfKeyGen` make one from the two working seeds and control bits, and how
`DpfEval`, `Traverse` and `DcfEval` apply it to a seed. The code is the same in both files up
to the function that splits a seed, which is a parameter here.

`keyGenLevel_corr`, `keyGenLevel_node0`, `keyGenLevel_node1` and `correctedChildren_eq` say
that this code computes the correction words and the children of `CorrectedTree`; the rest
of the development reasons about the tree. The pseudo random generator is a parameter:
`prg B seed i` is the result of call number `i` on a fresh `Prg<uint128_t, B>(seed)`.
-/

open CorrectedTree

namespace Yacl.Crypto

/-- A family of generators: `prg B seed i` is the result of call number `i` on a fresh
`Prg<uint128_t, B>(seed)`. -/
abbrev Prg := ℕ → Uint128 → ℕ → Uint128

/-- The `uint8_t` that a `bool` converts to. -/
def toUint8 (b : Bool) : BitVec 8 := if b then 1 else 0

/-! ### Correction words -/

/-- `DpfKey::CW`, the correction word of a level; `t_store_` holds `t_left` in its first bit
and `t_right` in its second one. -/
structure CW where
  seed : Uint128 := 0
  tStore : BitVec 8 := 0
deriving DecidableEq

namespace CW

/-- `GetLT`. -/
def getLT (c : CW) : BitVec 8 := c.tStore &&& 1

/-- `GetRT`. -/
def getRT (c : CW) : BitVec 8 := c.tStore >>> 1 &&& 1

/-- `SetLT`. -/
def setLT (c : CW) (tLeft : BitVec 8) : Except Exception CW := do
  enforce (tLeft = 0 ∨ tLeft = 1) "t_left == 0 || t_left == 1" ""
  pure { c with tStore := (c.getRT <<< 1) + tLeft }

/-- `SetRT`. -/
def setRT (c : CW) (tRight : BitVec 8) : Except Exception CW := do
  enforce (tRight = 0 ∨ tRight = 1) "t_right == 0 || t_right == 1" ""
  pure { c with tStore := (tRight <<< 1) + c.getLT }

/-- `SetSeed`. -/
def setSeed (c : CW) (seed : Uint128) : CW := { c with seed := seed }

/-- A correction word in the terms of `CorrectedTree`. -/
def toCorr (c : CW) : Corr 128 := ⟨c.seed, fun d => (if d then c.getRT else c.getLT) != 0⟩

/-- Writing the left bit makes it the bit that is read back, whatever the store was. -/
theorem getLT_setLT (seed : Uint128) (x : BitVec 8) (l : Bool) :
    getLT ⟨seed, ((x >>> 1 &&& 1) <<< 1) + toUint8 l⟩ = toUint8 l := by
  simp only [getLT]
  revert x
  cases l <;> decide

/-- The three setters, in the order in which key generation calls them, leave exactly the
seed and the two bits. -/
theorem set_ok (c : CW) (seed : Uint128) (l r : Bool) :
    ∃ c1 c2, (c.setSeed seed).setLT (toUint8 l) = .ok c1 ∧ c1.setRT (toUint8 r) = .ok c2 ∧
      c2.toCorr = ⟨seed, fun d => if d then r else l⟩ := by
  refine ⟨{ seed := seed, tStore := ((c.tStore >>> 1 &&& 1) <<< 1) + toUint8 l },
    { seed := seed, tStore := (toUint8 r <<< 1) + toUint8 l }, ?_, ?_, ?_⟩
  · rw [setLT, enforce_of_pos (by cases l <;> simp [toUint8])]
    rfl
  · rw [setRT, enforce_of_pos (by cases r <;> simp [toUint8]), getLT_setLT]
    rfl
  · simp only [toCorr, getLT, getRT, Corr.mk.injEq, true_and]
    funext d
    cases d <;> cases l <;> cases r <;> rfl

end CW

section Level

variable (split : Uint128 → Uint128 × Bool × Uint128 × Bool)

/-- A seed splitting function, by direction. -/
def splitDir (seed : Uint128) (d : Bool) : Uint128 × Bool :=
  let (seedLeft, tLeft, seedRight, tRight) := split seed
  if d then (seedRight, tRight) else (seedLeft, tLeft)

/-! ### Key generation -/

/-- The variables of key generation that a level changes, `seeds_working` and `t_working`. -/
structure LevelState where
  seed0 : Uint128
  seed1 : Uint128
  t0 : Bool
  t1 : Bool

/-- The node of the first party. -/
def LevelState.node0 (s : LevelState) : Node 128 := ⟨s.seed0, s.t0⟩

/-- The node of the second party. -/
def LevelState.node1 (s : LevelState) : Node 128 := ⟨s.seed1, s.t1⟩

/-- The seed and the bits of the correction word that a level makes: `cw_seed`, `cw_t_left`
and `cw_t_right`, and the working variables for the next level. -/
def keyGenLevel (alphaBit : Bool) (s : LevelState) : Uint128 × Bool × Bool × LevelState :=
  let (seedLeft0, tLeft0, seedRight0, tRight0) := split s.seed0
  let (seedLeft1, tLeft1, seedRight1, tRight1) := split s.seed1
  let keepSeed0 := if alphaBit then seedRight0 else seedLeft0
  let keepSeed1 := if alphaBit then seedRight1 else seedLeft1
  let loseSeed0 := if alphaBit then seedLeft0 else seedRight0
  let loseSeed1 := if alphaBit then seedLeft1 else seedRight1
  let tKeep0 := if alphaBit then tRight0 else tLeft0
  let tKeep1 := if alphaBit then tRight1 else tLeft1
  let cwSeed := loseSeed0 ^^^ loseSeed1
  let cwTLeft := tLeft0 ^^ tLeft1 ^^ alphaBit ^^ true
  let cwTRight := tRight0 ^^ tRight1 ^^ alphaBit
  let cwTKeep := if alphaBit then cwTRight else cwTLeft
  (cwSeed, cwTLeft, cwTRight,
    { seed0 := if s.t0 then keepSeed0 ^^^ cwSeed else keepSeed0
      seed1 := if s.t1 then keepSeed1 ^^^ cwSeed else keepSeed1
      t0 := tKeep0 ^^ (s.t0 && cwTKeep)
      t1 := tKeep1 ^^ (s.t1 && cwTKeep) })

/-- The correction word of a level is the one that keeps the direction of `alpha`. -/
theorem keyGenLevel_corr (alphaBit : Bool) (s : LevelState) :
    let out := keyGenLevel split alphaBit s
    (⟨out.1, fun d => if d then out.2.2.1 else out.2.1⟩ : Corr 128) =
      corr (splitDir split) s.node0 s.node1 alphaBit := by
  apply Corr.ext_bits <;> cases alphaBit <;>
    simp [keyGenLevel, corr, splitDir, LevelState.node0, LevelState.node1]

theorem keyGenLevel_node0 (alphaBit : Bool) (s : LevelState) :
    (keyGenLevel split alphaBit s).2.2.2.node0 =
      (corr (splitDir split) s.node0 s.node1 alphaBit).child (splitDir split) s.node0
        alphaBit := by
  rw [← keyGenLevel_corr]
  cases alphaBit <;> simp [keyGenLevel, Corr.child, splitDir, LevelState.node0]

theorem keyGenLevel_node1 (alphaBit : Bool) (s : LevelState) :
    (keyGenLevel split alphaBit s).2.2.2.node1 =
      (corr (splitDir split) s.node0 s.node1 alphaBit).child (splitDir split) s.node1
        alphaBit := by
  rw [← keyGenLevel_corr]
  cases alphaBit <;> simp [keyGenLevel, Corr.child, splitDir, LevelState.node1]

/-! ### Evaluation -/

/-- The two children of a seed under a correction word: the left seed and bit, then the right
ones. -/
def correctedChildren (cw : CW) (seed : Uint128) (t : Bool) : Uint128 × Bool × Uint128 × Bool :=
  let (seedLeft, tLeft, seedRight, tRight) := split seed
  (if t then seedLeft ^^^ cw.seed else seedLeft, tLeft ^^ (t && cw.getLT != 0),
   if t then seedRight ^^^ cw.seed else seedRight, tRight ^^ (t && cw.getRT != 0))

theorem correctedChildren_eq (c : CW) (seed : Uint128) (t : Bool) :
    correctedChildren split c seed t =
      ((c.toCorr.child (splitDir split) ⟨seed, t⟩ false).seed,
        (c.toCorr.child (splitDir split) ⟨seed, t⟩ false).bit,
        (c.toCorr.child (splitDir split) ⟨seed, t⟩ true).seed,
        (c.toCorr.child (splitDir split) ⟨seed, t⟩ true).bit) := by
  simp [correctedChildren, Corr.child, CW.toCorr, splitDir]

/-! ### Keys on a path -/

variable (dir : ℕ → Bool) (mk0 mk1 : Uint128)

/-- The root of a party: its master seed, with its rank as the control bit. -/
def keyRoot (rank : Bool) (mk : Uint128) : Node 128 := ⟨mk, rank⟩

/-- The pair of nodes on the path `dir` from the two master seeds. -/
def keyPath : ℕ → Node 128 × Node 128 :=
  path (splitDir split) dir (keyRoot false mk0) (keyRoot true mk1)

/-- The correction words of the path `dir` from the two master seeds. -/
def keyCorr : ℕ → Corr 128 :=
  pathCorr (splitDir split) dir (keyRoot false mk0) (keyRoot true mk1)

/-- The walk of a party along the directions `d`, under the correction words of `dir`. -/
def keyWalk (d : ℕ → Bool) (rank : Bool) : ℕ → Node 128 :=
  walk (splitDir split) (keyCorr split dir mk0 mk1) d (keyRoot rank (if rank then mk1 else mk0))

/-- The list of correction words holds, level by level, the words of the path `dir`. -/
def CwsOnPath (n : ℕ) (cws : List CW) : Prop :=
  ∀ j < n, ∃ c, cws[j]? = some c ∧ c.toCorr = keyCorr split dir mk0 mk1 j

variable {dir}

theorem keyWalk_of_agree {d : ℕ → Bool} {n : ℕ} (h : ∀ j < n, d j = dir j) :
    keyPath split dir mk0 mk1 n =
        (keyWalk split dir mk0 mk1 d false n, keyWalk split dir mk0 mk1 d true n) ∧
      (keyWalk split dir mk0 mk1 d true n).bit =
        !(keyWalk split dir mk0 mk1 d false n).bit := by
  obtain ⟨h0, h1⟩ :=
    walk_of_agree (splitDir split) h
  exact ⟨(Prod.ext h0 h1).symm, walk_bit_of_agree (splitDir split) rfl h⟩

theorem keyWalk_of_leave {d : ℕ → Bool} {n : ℕ} (h : ¬∀ j < n, d j = dir j) :
    keyWalk split dir mk0 mk1 d false n = keyWalk split dir mk0 mk1 d true n :=
  (walk_cases (splitDir split) rfl n).resolve_left h

end Level

end Yacl.Crypto
