import Yacl.Dpf.Dpf

/-!
# Full-domain evaluation of a distributed point function

The model of `Traverse` and `DpfEvalAll` of `yacl/crypto/experimental/dpf/dpf.cc`. The
recursion stops at the **terminate level**, below which every node is expanded into
`2 ^ (M - term_level)` outputs. The stores into the output span are kept as a **trace** of
index and value pairs, in the order in which the source makes them, so that it can be said
how often an index is written; `storeAll` carries out a trace on a span.

`traverse_eq` writes the trace as the list of the tree's leaves. Leaf `q` of the terminate
level stores its `i`-th value at index `q + (i << term_level)`, where the shift is one of
`uint32_t`: for `M ≤ 32`, and when the recursion reaches the bottom of the tree, the stores
enumerate the domain (`leafIndices_perm`), while for wider inputs with early termination the
shifted part wraps and the last index is never written (`last_not_mem_leafIndices`).
-/

open CorrectedTree Loop

namespace Yacl.Crypto

section Model

variable (prg : Prg) (lvl : ℕ → ℕ → ℕ) {N : ℕ}

/-- One iteration of the expansion loop of `Traverse`; the state is `prg` and the stores made
so far. -/
def traverseExpandStep (key : DpfKey) (pos : ℕ) (t : Bool) (termLevel i : ℕ)
    (s : GE2n N × List (ℕ × GE2n N)) : Except Exception (GE2n N × List (ℕ × GE2n N)) := do
  let lastCw ← vecGet key.lastCwVec i
  let index := pos + (shl32 (BitVec.ofNat 32 i) termLevel).toNat
  pure (dpfPRG prg N s.1.getVal, s.2 ++ [(index, dpfOutput key.rank t s.1 lastCw)])

/-- `Traverse<M, N>`: the stores into `result`, in order. -/
def traverse (M : ℕ) (key : DpfKey) (level pos : ℕ) (seed : Uint128) (t : Bool)
    (termLevel : ℕ) : Except Exception (List (ℕ × GE2n N)) := do
  if level < termLevel then
    let cw ← vecGet key.cwsVec level
    let (seedLeft, tLeft, seedRight, tRight) := correctedChildren (splitDpfSeed prg) cw seed t
    let left ← traverse M key (level + 1) pos seedLeft tLeft termLevel
    let right ← traverse M key (level + 1) (2 ^ level + pos) seedRight tRight termLevel
    pure (left ++ right)
  else
    let expandNum := shl32 1 (M - termLevel)
    let (_, stores) ← forLoop expandNum.toNat (traverseExpandStep prg key pos t termLevel)
      (dpfPRG prg N seed, [])
    pure stores
termination_by termLevel - level

/-- `DpfEvalAll<M, N>`: the stores into `out`, in order. -/
def dpfEvalAll (M : ℕ) (key : DpfKey) : Except Exception (List (ℕ × GE2n N)) := do
  enforce (key.enableEvalall = true) "key->enable_evalall == true" ""
  traverse prg M key 0 0 key.mseed key.rank (getTerminateLevel lvl true M N)

/-- The content of a span after a trace of stores. -/
def storeAll {α : Type} (stores : List (ℕ × α)) (out : ℕ → α) : ℕ → α :=
  stores.foldl (fun o p => Function.update o p.1 p.2) out

end Model

/-! ### Traces of stores -/

theorem storeAll_of_notMem {α : Type} {stores : List (ℕ × α)} {x : ℕ}
    (h : x ∉ stores.map Prod.fst) (out : ℕ → α) : storeAll stores out x = out x := by
  induction stores generalizing out with
  | nil => rfl
  | cons p ps ih =>
    rw [List.map_cons, List.mem_cons, not_or] at h
    exact (ih h.2 _).trans (Function.update_of_ne h.1 _ _)

theorem storeAll_of_mem {α : Type} {stores : List (ℕ × α)}
    (hnodup : (stores.map Prod.fst).Nodup) {x : ℕ} {y : α} (h : (x, y) ∈ stores)
    (out : ℕ → α) : storeAll stores out x = y := by
  induction stores generalizing out with
  | nil => exact absurd h List.not_mem_nil
  | cons p ps ih =>
    rw [List.map_cons, List.nodup_cons] at hnodup
    rcases List.mem_cons.mp h with rfl | h
    · exact (storeAll_of_notMem hnodup.1 _).trans (Function.update_self _ _ _)
    · exact ih hnodup.2 h _

/-! ### The leaves of the terminate level -/

/-- The positions that `Traverse` reaches from position `pos` at `level`, when `k` levels are
left; their order is that of the recursion. -/
def leafPositions : ℕ → ℕ → ℕ → List ℕ
  | 0, _, pos => [pos]
  | k + 1, level, pos =>
    leafPositions k (level + 1) pos ++ leafPositions k (level + 1) (2 ^ level + pos)

/-- From `pos` the recursion reaches the positions that agree with it on the levels above. -/
theorem mem_leafPositions {k level pos q : ℕ} (hpos : pos < 2 ^ level) :
    q ∈ leafPositions k level pos ↔ q < 2 ^ (level + k) ∧ q % 2 ^ level = pos := by
  induction k generalizing level pos with
  | zero =>
    rw [leafPositions, List.mem_singleton, Nat.add_zero]
    constructor
    · rintro rfl
      exact ⟨hpos, Nat.mod_eq_of_lt hpos⟩
    · rintro ⟨hq, hmod⟩
      rwa [Nat.mod_eq_of_lt hq] at hmod
  | succ k ih =>
    have hpow : 2 ^ (level + 1) = 2 ^ level * 2 := pow_succ 2 level
    rw [leafPositions, List.mem_append, ih (by omega), ih (by omega),
      show level + 1 + k = level + (k + 1) by omega, ← and_or_left]
    refine and_congr_right fun _ => ?_
    -- the bit of this level is the one that `2 ^ level` adds
    have hmod : q % 2 ^ (level + 1) = q % 2 ^ level + 2 ^ level * (q / 2 ^ level % 2) := by
      rw [hpow, Nat.mod_mul]
    rcases Nat.mod_two_eq_zero_or_one (q / 2 ^ level) with hb | hb <;> rw [hb] at hmod <;>
      omega

theorem nodup_leafPositions {k level pos : ℕ} (hpos : pos < 2 ^ level) :
    (leafPositions k level pos).Nodup := by
  induction k generalizing level pos with
  | zero => exact List.nodup_singleton _
  | succ k ih =>
    refine List.nodup_append.mpr ⟨ih (by omega), ih (by omega), fun x hx y hy hxy => ?_⟩
    have hx' := (mem_leafPositions (by omega)).mp hx
    have hy' := (mem_leafPositions (by omega)).mp hy
    rw [hxy] at hx'
    omega

/-- The indices that `Traverse` stores into, in order. -/
def leafIndices (M term : ℕ) : List ℕ :=
  (leafPositions term 0 0).flatMap fun q =>
    (List.range (shl32 1 (M - term)).toNat).map fun i =>
      q + (shl32 (BitVec.ofNat 32 i) term).toNat

/-- The widths for which the shift of the store index does not wrap. -/
def ShiftInRange (M term : ℕ) : Prop := M ≤ 32 ∨ term = M

instance (M term : ℕ) : Decidable (ShiftInRange M term) := inferInstanceAs (Decidable (_ ∨ _))

section InRange

variable {M term : ℕ} (hpos : 1 ≤ term) (hle : term ≤ M) (hr : ShiftInRange M term)
include hpos hle hr

theorem toNat_expandNum : (shl32 1 (M - term)).toNat = 2 ^ (M - term) := by
  have hlt : M - term < 32 := by rcases hr with h | h <;> omega
  have hpow : 2 ^ (M - term) < 2 ^ 32 := Nat.pow_lt_pow_right (by omega) hlt
  rw [show (1 : BitVec 32) = BitVec.ofNat 32 1 from rfl,
    toNat_shl32_of_lt hlt (by omega), Nat.one_mul]

omit hpos in
theorem toNat_shl32_termLevel {i : ℕ} (hi : i < 2 ^ (M - term)) :
    (shl32 (BitVec.ofNat 32 i) term).toNat = i * 2 ^ term := by
  rcases hr with h | rfl
  · have hmul : i * 2 ^ term < 2 ^ 32 := by
      calc i * 2 ^ term < 2 ^ (M - term) * 2 ^ term :=
            Nat.mul_lt_mul_of_pos_right hi (Nat.two_pow_pos term)
        _ = 2 ^ M := by rw [← pow_add, Nat.sub_add_cancel hle]
        _ ≤ 2 ^ 32 := Nat.pow_le_pow_right (by omega) h
    rcases Nat.lt_or_ge term 32 with hlt | hge
    · exact toNat_shl32_of_lt hlt hmul
    · obtain rfl : i = 0 := by
        rw [show M - term = 0 by omega] at hi
        omega
      simp [shl32]
  · obtain rfl : i = 0 := by
      rw [Nat.sub_self] at hi
      omega
    simp [shl32]

theorem mem_leafIndices {x : ℕ} : x ∈ leafIndices M term ↔ x < 2 ^ M := by
  have hsplit : 2 ^ M = 2 ^ term * 2 ^ (M - term) := by
    rw [← pow_add, Nat.add_sub_cancel' hle]
  simp only [leafIndices, List.mem_flatMap, List.mem_map, List.mem_range,
    mem_leafPositions (Nat.two_pow_pos 0), toNat_expandNum hpos hle hr, Nat.zero_add, pow_zero,
    Nat.mod_one, and_true]
  constructor
  · rintro ⟨q, hq, i, hi, rfl⟩
    rw [toNat_shl32_termLevel hle hr hi, hsplit]
    calc q + i * 2 ^ term < 2 ^ term + i * 2 ^ term := by omega
      _ = 2 ^ term * (i + 1) := by ring
      _ ≤ 2 ^ term * 2 ^ (M - term) := Nat.mul_le_mul_left _ hi
  · intro hx
    have hi : x / 2 ^ term < 2 ^ (M - term) := Nat.div_lt_of_lt_mul (hsplit ▸ hx)
    refine ⟨x % 2 ^ term, Nat.mod_lt _ (Nat.two_pow_pos term), x / 2 ^ term, hi, ?_⟩
    rw [toNat_shl32_termLevel hle hr hi, Nat.mod_add_div']

theorem nodup_leafIndices : (leafIndices M term).Nodup := by
  rw [leafIndices, toNat_expandNum hpos hle hr, List.nodup_flatMap]
  have hpow := Nat.two_pow_pos term
  refine ⟨fun q hq => ?_, (nodup_leafPositions (Nat.two_pow_pos 0)).imp_of_mem ?_⟩
  · refine List.Nodup.map_on (fun i hi j hj hij => ?_) List.nodup_range
    rw [List.mem_range] at hi hj
    rw [toNat_shl32_termLevel hle hr hi, toNat_shl32_termLevel hle hr hj] at hij
    exact Nat.eq_of_mul_eq_mul_right hpow (by omega)
  · -- the low `term` bits of an index tell from which leaf it was written
    intro q q' hq hq' hne
    rw [mem_leafPositions (Nat.two_pow_pos 0), Nat.zero_add] at hq hq'
    simp only [List.disjoint_left, List.mem_map, List.mem_range]
    rintro x ⟨i, hi, rfl⟩ ⟨j, hj, hij⟩
    rw [toNat_shl32_termLevel hle hr hi, toNat_shl32_termLevel hle hr hj] at hij
    have hmod := congrArg (· % 2 ^ term) hij
    simp only [Nat.add_mul_mod_self_right, Nat.mod_eq_of_lt hq.1, Nat.mod_eq_of_lt hq'.1] at hmod
    exact hne hmod.symm

/-- **In range every index of the domain is written exactly once.** -/
theorem leafIndices_perm : (leafIndices M term).Perm (List.range (2 ^ M)) :=
  (List.perm_ext_iff_of_nodup (nodup_leafIndices hpos hle hr) List.nodup_range).mpr fun x => by
    rw [mem_leafIndices hpos hle hr, List.mem_range]

end InRange

/-- Out of range the last index of the domain is never written: the shifted part of an index
is below `2 ^ 32`. -/
theorem last_not_mem_leafIndices {M term : ℕ} (hle : term ≤ M) (hr : ¬ShiftInRange M term) :
    2 ^ M - 1 ∉ leafIndices M term := by
  rw [ShiftInRange] at hr
  intro hmem
  simp only [leafIndices, List.mem_flatMap, List.mem_map, mem_leafPositions (Nat.two_pow_pos 0),
    Nat.zero_add] at hmem
  have hterm : 2 ^ term ≤ 2 ^ (M - 1) := Nat.pow_le_pow_right (by omega) (by omega)
  have h32 : 2 ^ 32 ≤ 2 ^ (M - 1) := Nat.pow_le_pow_right (by omega) (by omega)
  have hM : 2 ^ M = 2 ^ (M - 1) * 2 := by rw [← pow_succ, Nat.sub_add_cancel (by omega)]
  omega

/-! ### The trace of `DpfEvalAll` -/

section Trace

variable (prg : Prg) (lvl : ℕ → ℕ → ℕ) {M N : ℕ}

/-- The `i`-th value that a seed expands to below the terminate level. -/
def dpfValue (N : ℕ) (seed : Uint128) : ℕ → GE2n N
  | 0 => dpfPRG prg N seed
  | i + 1 => dpfPRG prg N (dpfValue N seed i).getVal

/-- The `i`-th last correction word for the seeds at the end of the path to `alpha`. -/
def dpfExpandCw (beta : GE2n N) (t1 : Bool) (alphaPos : BitVec 32) (seed0 seed1 : Uint128)
    (i : ℕ) : Uint128 :=
  let lastCw :=
    if BitVec.ofNat 32 i = alphaPos then
      beta + (dpfValue prg N seed0 i).getReverse + dpfValue prg N seed1 i
    else (dpfValue prg N seed0 i).getReverse + dpfValue prg N seed1 i
  if t1 then lastCw.getReverse.getVal else lastCw.getVal

theorem toZMod_dpfExpandCw (hN : N ≤ 128) (beta : GE2n N) (t1 : Bool) (alphaPos : BitVec 32)
    (seed0 seed1 : Uint128) (i : ℕ) :
    (⟨dpfExpandCw prg beta t1 alphaPos seed0 seed1 i⟩ : GE2n N).toZMod =
      if t1 then
        -((if BitVec.ofNat 32 i = alphaPos then beta.toZMod else 0) -
          (dpfValue prg N seed0 i).toZMod + (dpfValue prg N seed1 i).toZMod)
      else
        (if BitVec.ofNat 32 i = alphaPos then beta.toZMod else 0) -
          (dpfValue prg N seed0 i).toZMod + (dpfValue prg N seed1 i).toZMod := by
  by_cases hi : BitVec.ofNat 32 i = alphaPos <;> cases t1 <;>
    simp [dpfExpandCw, hi, GE2n.toZMod_mk_getVal hN, GE2n.toZMod_getReverse hN,
      GE2n.toZMod_add hN] <;> ring

theorem iterLoop_dpfLastCwStep (beta : GE2n N) (t1 : Bool) (alphaPos : BitVec 32)
    (seed0 seed1 : Uint128) (n : ℕ) :
    iterLoop n (dpfLastCwStep prg beta t1 alphaPos)
        (dpfPRG prg N seed0, dpfPRG prg N seed1, []) =
      (dpfValue prg N seed0 n, dpfValue prg N seed1 n,
        (List.range n).map (dpfExpandCw prg beta t1 alphaPos seed0 seed1)) := by
  refine iterLoop_inv (fun i s => s = (dpfValue prg N seed0 i, dpfValue prg N seed1 i,
    (List.range i).map (dpfExpandCw prg beta t1 alphaPos seed0 seed1))) rfl ?_
  rintro i - s rfl
  rw [List.range_succ, List.map_append]
  rfl

theorem forLoop_traverseExpandStep {key : DpfKey} {n : ℕ} {cws : ℕ → Uint128}
    (hcws : key.lastCwVec = (List.range n).map cws) (pos : ℕ) (t : Bool) (term : ℕ)
    (seed : Uint128) :
    forLoop n (traverseExpandStep prg key pos t term) (dpfPRG prg N seed, []) =
      .ok (dpfValue prg N seed n, (List.range n).map fun i =>
        (pos + (shl32 (BitVec.ofNat 32 i) term).toNat,
          dpfOutput key.rank t (dpfValue prg N seed i) (cws i))) := by
  refine forLoop_eq_ok (fun i => (dpfValue prg N seed i, (List.range i).map fun i =>
    (pos + (shl32 (BitVec.ofNat 32 i) term).toNat,
      dpfOutput key.rank t (dpfValue prg N seed i) (cws i)))) fun i hi => ?_
  have hget : key.lastCwVec[i]? = some (cws i) := by
    rw [hcws, List.getElem?_map, List.getElem?_range hi, Option.map_some]
  rw [traverseExpandStep, vecGet_of_getElem? hget, List.range_succ, List.map_append]
  rfl

/-- The walk of a party to position `q`, whose bits are the directions from the root on. -/
def dpfLeaf (alpha : GE2n M) (mk0 mk1 : Uint128) (rank : Bool) (level q : ℕ) : Node 128 :=
  keyWalk (splitDpfSeed prg) (dpfDir alpha) mk0 mk1 q.testBit rank level

/-- The stores of a party at the leaves below position `pos` of `level`. -/
def leafStores (alpha : GE2n M) (mk0 mk1 : Uint128) (cws : ℕ → Uint128) (rank : Bool)
    (expandNum k level pos : ℕ) : List (ℕ × GE2n N) :=
  (leafPositions k level pos).flatMap fun q =>
    (List.range expandNum).map fun i =>
      (q + (shl32 (BitVec.ofNat 32 i) (level + k)).toNat,
        dpfOutput rank (dpfLeaf prg alpha mk0 mk1 rank (level + k) q).bit
          (dpfValue prg N (dpfLeaf prg alpha mk0 mk1 rank (level + k) q).seed i) (cws i))

/-- **`Traverse` stores the expanded leaves.** Called at the node that the bits of `pos` lead
to, it returns the stores of the leaves below. -/
theorem traverse_eq {alpha : GE2n M} {mk0 mk1 : Uint128} {key : DpfKey} {term : ℕ}
    {cws : ℕ → Uint128} (hcws : CwsOnPath (splitDpfSeed prg) (dpfDir alpha) mk0 mk1 term key.cwsVec)
    (hlast : key.lastCwVec = (List.range (shl32 1 (M - term)).toNat).map cws)
    {k level pos : ℕ} (hk : level + k = term) (hpos : pos < 2 ^ level) :
    traverse prg M key level pos (dpfLeaf prg alpha mk0 mk1 key.rank level pos).seed
        (dpfLeaf prg alpha mk0 mk1 key.rank level pos).bit term =
      .ok (leafStores (N := N) prg alpha mk0 mk1 cws key.rank (shl32 1 (M - term)).toNat
        k level pos) := by
  induction k generalizing level pos with
  | zero =>
    obtain rfl : level = term := by omega
    rw [traverse]
    simp only [forLoop_traverseExpandStep prg hlast]
    simp [leafStores, leafPositions]
  | succ k ih =>
    obtain ⟨c, hget, hc⟩ := hcws level (by omega)
    -- the children of this node are the nodes of the two positions one level down
    have hleft : c.toCorr.child (splitDir (splitDpfSeed prg))
        (dpfLeaf prg alpha mk0 mk1 key.rank level pos) false
          = dpfLeaf prg alpha mk0 mk1 key.rank (level + 1) pos := by
      simp only [dpfLeaf, keyWalk, walk, hc, Nat.testBit_lt_two_pow hpos]
    have hright : c.toCorr.child (splitDir (splitDpfSeed prg))
        (dpfLeaf prg alpha mk0 mk1 key.rank level pos) true
          = dpfLeaf prg alpha mk0 mk1 key.rank (level + 1) (2 ^ level + pos) := by
      simp only [dpfLeaf, keyWalk, walk, hc, Nat.testBit_two_pow_add_eq,
        Nat.testBit_lt_two_pow hpos, Bool.not_false]
      rw [walk_congr (splitDir (splitDpfSeed prg)) fun j hj => Nat.testBit_two_pow_add_gt hj pos]
    rw [traverse, if_pos (by omega), vecGet_of_getElem? hget, ok_bind]
    simp only [correctedChildren_eq]
    rw [hleft, hright, ih (by omega) (by omega), ih (by omega) (by omega)]
    simp [leafStores, leafPositions, show level + 1 + k = level + (k + 1) by omega]

theorem map_fst_leafStores (alpha : GE2n M) (mk0 mk1 : Uint128) (cws : ℕ → Uint128)
    (rank : Bool) (term : ℕ) :
    (leafStores (N := N) prg alpha mk0 mk1 cws rank (shl32 1 (M - term)).toNat term 0 0).map
      Prod.fst = leafIndices M term := by
  simp [leafStores, leafIndices, List.map_flatMap, Function.comp_def]

/-- **Key generation with `enable_evalall`** returns: the keys share the correction words of
the path to `alpha` down to the terminate level, and the last correction words for the seeds
at the end of that path. -/
theorem dpfKeyGen_true_ok (hM : M ≤ 64) (alpha : GE2n M) (beta : GE2n N) (mk0 mk1 : Uint128)
    {term : ℕ} (hterm : getTerminateLevel lvl true M N = term) :
    ∃ cws n0 n1,
      keyPath (splitDpfSeed prg) (dpfDir alpha) mk0 mk1 term =
        (n0, n1) ∧
      CwsOnPath (splitDpfSeed prg) (dpfDir alpha) mk0 mk1 term cws ∧
      ∀ last, last = (List.range (shl32 1 (M - term)).toNat).map (dpfExpandCw prg beta n1.bit
          ((alpha.getVal >>> term).setWidth 32) n0.seed n1.seed) →
        dpfKeyGen prg lvl alpha beta mk0 mk1 true =
          .ok ({ enableEvalall := true, cwsVec := cws, lastCwVec := last, rank := false,
                 mseed := mk0 },
            { enableEvalall := true, cwsVec := cws, lastCwVec := last, rank := true,
              mseed := mk1 }) := by
  have hle : term ≤ M := by
    rw [← hterm]
    exact Nat.min_le_left _ _
  obtain ⟨s, hs, -, hcws, hpath⟩ :=
    dpfKeyGenLevels_ok prg alpha mk0 mk1 (show term ≤ 128 by omega)
  refine ⟨s.cws, s.node0, s.node1, hpath, hcws, ?_⟩
  rintro _ rfl
  simp only [dpfKeyGen, hterm, hs, iterLoop_dpfLastCwStep]
  rfl

/-- `DpfEvalAll` of a key with the correction words of the path to `alpha`. -/
theorem dpfEvalAll_ok {alpha : GE2n M} {mk0 mk1 : Uint128} {term : ℕ}
    (hterm : getTerminateLevel lvl true M N = term) {cws : List CW}
    (hcws : CwsOnPath (splitDpfSeed prg) (dpfDir alpha) mk0 mk1 term cws) (last : ℕ → Uint128)
    (rank : Bool) :
    dpfEvalAll prg lvl M
        { enableEvalall := true, cwsVec := cws,
          lastCwVec := (List.range (shl32 1 (M - term)).toNat).map last, rank := rank,
          mseed := if rank then mk1 else mk0 } =
      .ok (leafStores (N := N) prg alpha mk0 mk1 last rank (shl32 1 (M - term)).toNat
        term 0 0) := by
  rw [dpfEvalAll, hterm]
  exact traverse_eq prg hcws rfl (Nat.zero_add term) (Nat.two_pow_pos 0)

end Trace

/-! ### Correctness -/

section Correct

variable (prg : Prg) (lvl : ℕ → ℕ → ℕ) {M N : ℕ}

/-- Full-domain evaluation is correct for the widths `M` and `N`: under the keys of every
point function both parties write every index of the domain exactly once, and what they
leave in their output spans is a sharing of the point function. -/
def DpfEvalAllCorrect (M N : ℕ) : Prop :=
  ∀ (alpha : GE2n M) (beta : GE2n N) (firstMk secondMk : Uint128),
    ∃ (k0 k1 : DpfKey) (w0 w1 : List (ℕ × GE2n N)),
      dpfKeyGen prg lvl alpha beta firstMk secondMk true = .ok (k0, k1) ∧
      dpfEvalAll prg lvl M k0 = .ok w0 ∧ dpfEvalAll prg lvl M k1 = .ok w1 ∧
      (w0.map Prod.fst).Perm (List.range (2 ^ M)) ∧
      (w1.map Prod.fst).Perm (List.range (2 ^ M)) ∧
      ∀ (out0 out1 : ℕ → GE2n N), ∀ x < 2 ^ M,
        (storeAll w0 out0 x + storeAll w1 out1 x).getVal =
          if x = alpha.getVal.toNat then beta.getVal else 0

variable {term : ℕ} (hle : term ≤ M) (hr : ShiftInRange M term)
include hle hr

/-- In range, index `x` is written from leaf `x % 2 ^ term` in round `x / 2 ^ term`. -/
theorem mem_leafStores (hpos : 1 ≤ term) (alpha : GE2n M) (mk0 mk1 : Uint128)
    (cws : ℕ → Uint128) (rank : Bool) {x : ℕ} (hx : x < 2 ^ M) :
    (x, dpfOutput rank (dpfLeaf prg alpha mk0 mk1 rank term (x % 2 ^ term)).bit
        (dpfValue prg N (dpfLeaf prg alpha mk0 mk1 rank term (x % 2 ^ term)).seed
          (x / 2 ^ term)) (cws (x / 2 ^ term))) ∈
      leafStores prg alpha mk0 mk1 cws rank (shl32 1 (M - term)).toNat term 0 0 := by
  have hi : x / 2 ^ term < 2 ^ (M - term) :=
    Nat.div_lt_of_lt_mul (by rwa [← pow_add, Nat.add_sub_cancel' hle])
  simp only [leafStores, List.mem_flatMap, List.mem_map, List.mem_range, Nat.zero_add,
    mem_leafPositions (Nat.two_pow_pos 0), toNat_expandNum hpos hle hr, pow_zero, Nat.mod_one,
    and_true]
  refine ⟨x % 2 ^ term, Nat.mod_lt _ (Nat.two_pow_pos term), x / 2 ^ term, hi, ?_⟩
  rw [toNat_shl32_termLevel hle hr hi, Nat.mod_add_div']

omit hr in
/-- The bits that lead to leaf `x % 2 ^ term` are those of `alpha` exactly when the two agree
modulo `2 ^ term`. -/
theorem testBit_eq_dpfDir_iff (hM : M ≤ 128) (alpha : GE2n M) (x : ℕ) :
    (∀ j < term, (x % 2 ^ term).testBit j = dpfDir alpha j) ↔
      x % 2 ^ term = alpha.getVal.toNat % 2 ^ term := by
  rw [GE2n.toNat_getVal hM, Nat.mod_mod_of_dvd _ (pow_dvd_pow 2 hle)]
  constructor
  · intro h
    refine Nat.eq_of_testBit_eq fun j => ?_
    by_cases hj : j < term
    · rw [h j hj, Nat.testBit_mod_two_pow, decide_eq_true hj, Bool.true_and]
      rfl
    · simp [Nat.testBit_mod_two_pow, hj]
  · intro h j hj
    rw [h, Nat.testBit_mod_two_pow, decide_eq_true hj, Bool.true_and]
    rfl

/-- In range, the round in which `DpfKeyGen` adds `beta` is the one of `alpha`. -/
theorem round_eq_alphaPos_iff (hpos : 1 ≤ term) (hM : M ≤ 128) (alpha : GE2n M) {x : ℕ}
    (hx : x < 2 ^ M) :
    BitVec.ofNat 32 (x / 2 ^ term) = (alpha.getVal >>> term).setWidth 32 ↔
      x / 2 ^ term = alpha.getVal.toNat / 2 ^ term := by
  have hsplit : 2 ^ M = 2 ^ term * 2 ^ (M - term) := by
    rw [← pow_add, Nat.add_sub_cancel' hle]
  have hbound : 2 ^ (M - term) ≤ 2 ^ 32 :=
    Nat.pow_le_pow_right (by omega) (by rcases hr with h | h <;> omega)
  have hsmall : ∀ y < 2 ^ M, y / 2 ^ term < 2 ^ 32 := fun y hy =>
    lt_of_lt_of_le (Nat.div_lt_of_lt_mul (hsplit ▸ hy)) hbound
  have halpha : alpha.getVal.toNat < 2 ^ M := by
    rw [GE2n.toNat_getVal hM]
    exact Nat.mod_lt _ (Nat.two_pow_pos M)
  rw [← BitVec.toNat_inj, BitVec.toNat_ofNat, BitVec.toNat_setWidth, BitVec.toNat_ushiftRight,
    Nat.shiftRight_eq_div_pow, Nat.mod_eq_of_lt (hsmall x hx),
    Nat.mod_eq_of_lt (hsmall _ halpha)]

/-- At index `x` the values of the two parties add up to `beta` or to zero. -/
theorem leafValue_add (hpos : 1 ≤ term) (hM : M ≤ 64) (hN : N ≤ 128) (alpha : GE2n M)
    (beta : GE2n N) (mk0 mk1 : Uint128) {n0 n1 : Node 128}
    (hpath : keyPath (splitDpfSeed prg) (dpfDir alpha) mk0 mk1 term =
      (n0, n1)) {x : ℕ} (hx : x < 2 ^ M) :
    let cw := dpfExpandCw prg beta n1.bit ((alpha.getVal >>> term).setWidth 32) n0.seed n1.seed
      (x / 2 ^ term)
    let leaf := fun rank => dpfLeaf prg alpha mk0 mk1 rank term (x % 2 ^ term)
    let out := fun rank =>
      dpfOutput rank (leaf rank).bit (dpfValue prg N (leaf rank).seed (x / 2 ^ term)) cw
    (out false + out true).getVal = if x = alpha.getVal.toNat then beta.getVal else 0 := by
  intro cw leaf out
  have hsame : x = alpha.getVal.toNat ↔ x % 2 ^ term = alpha.getVal.toNat % 2 ^ term ∧
      x / 2 ^ term = alpha.getVal.toNat / 2 ^ term := by
    constructor
    · rintro rfl
      exact ⟨rfl, rfl⟩
    · rintro ⟨hmod, hdiv⟩
      rw [← Nat.mod_add_div' x (2 ^ term), hmod, hdiv, Nat.mod_add_div']
  have hround := round_eq_alphaPos_iff hle hr hpos (by omega) alpha hx
  have hleaf := testBit_eq_dpfDir_iff hle (by omega) alpha x
  have hsum : (out false).toZMod + (out true).toZMod =
      if x = alpha.getVal.toNat then beta.toZMod else 0 := by
    by_cases hq : x % 2 ^ term = alpha.getVal.toNat % 2 ^ term
    · -- on the path to `alpha`: the round decides
      obtain ⟨hend, hbit⟩ := keyWalk_of_agree (splitDpfSeed prg) mk0 mk1 (hleaf.mpr hq)
      obtain ⟨rfl, rfl⟩ := Prod.ext_iff.mp (hpath.symm.trans hend)
      refine (dpfOutput_add hN hbit (toZMod_dpfExpandCw prg hN beta _ _ _ _ _)).trans ?_
      simp only [hround, hsame, hq, true_and]
    · -- off the path the two nodes are equal
      have hne : x ≠ alpha.getVal.toNat := fun h => hq (hsame.mp h).1
      have hmet : leaf false = leaf true :=
        keyWalk_of_leave (splitDpfSeed prg) mk0 mk1 fun h => hq (hleaf.mp h)
      rw [if_neg hne]
      simp only [out, hmet]
      exact dpfOutput_add_self hN _ _ _
  split
  · next hx' => rwa [GE2n.getVal_eq_iff hN, GE2n.toZMod_add hN, if_pos hx'] at *
  · next hx' => rwa [GE2n.getVal_eq_zero_iff hN, GE2n.toZMod_add hN, if_neg hx'] at *

omit hle in
theorem dpfEvalAllCorrect_of_inRange (hpos : 1 ≤ term) (hM : M ≤ 64) (hN : N ≤ 128)
    (hterm : getTerminateLevel lvl true M N = term) : DpfEvalAllCorrect prg lvl M N := by
  have hle : term ≤ M := by
    rw [← hterm]
    exact Nat.min_le_left _ _
  intro alpha beta mk0 mk1
  obtain ⟨cws, n0, n1, hpath, hcws, hkeys⟩ :=
    dpfKeyGen_true_ok prg lvl hM alpha beta mk0 mk1 hterm
  refine ⟨_, _, _, _, hkeys _ rfl, dpfEvalAll_ok prg lvl hterm hcws _ false,
    dpfEvalAll_ok prg lvl hterm hcws _ true, ?_, ?_, fun out0 out1 x hx => ?_⟩
  · rw [map_fst_leafStores]
    exact leafIndices_perm hpos hle hr
  · rw [map_fst_leafStores]
    exact leafIndices_perm hpos hle hr
  · have hnodup := nodup_leafIndices hpos hle hr
    rw [storeAll_of_mem (by rwa [map_fst_leafStores])
        (mem_leafStores prg hle hr hpos alpha mk0 mk1 _ false hx),
      storeAll_of_mem (by rwa [map_fst_leafStores])
        (mem_leafStores prg hle hr hpos alpha mk0 mk1 _ true hx)]
    exact leafValue_add prg hle hr hpos hM hN alpha beta mk0 mk1 hpath hx

omit hle hr in
theorem not_dpfEvalAllCorrect (hM : M ≤ 64) (hterm : getTerminateLevel lvl true M N = term)
    (hr : ¬ShiftInRange M term) : ¬DpfEvalAllCorrect prg lvl M N := by
  intro hcorrect
  have hle : term ≤ M := by
    rw [← hterm]
    exact Nat.min_le_left _ _
  obtain ⟨cws, n0, n1, -, hcws, hkeys⟩ :=
    dpfKeyGen_true_ok prg lvl hM (⟨0⟩ : GE2n M) (⟨0⟩ : GE2n N) 0 0 hterm
  obtain ⟨k0, k1, w0, w1, hkeys', hw0, -, hperm, -⟩ := hcorrect ⟨0⟩ ⟨0⟩ 0 0
  obtain ⟨rfl, rfl⟩ := Prod.ext_iff.mp (Except.ok.inj ((hkeys _ rfl).symm.trans hkeys'))
  obtain rfl := Except.ok.inj ((dpfEvalAll_ok prg lvl hterm hcws _ false).symm.trans hw0)
  rw [map_fst_leafStores] at hperm
  refine last_not_mem_leafIndices hle hr (hperm.mem_iff.mpr (List.mem_range.mpr ?_))
  have := Nat.two_pow_pos M
  omega

end Correct

/-- **Full-domain evaluation with early termination.** For every terminate level between `1`
and `M` it is correct exactly when `M ≤ 32` or the recursion does not stop early. At a terminate
level of `32` or more, and for leaves that expand into `2 ^ 32` outputs or more, the shifts of the
source are undefined: there both directions are about the shift of the machine (`shl32`). -/
theorem dpfEvalAllCorrect_iff (prg : Prg) (lvl : ℕ → ℕ → ℕ) {M N : ℕ} (hM : M ≤ 64)
    (hN : N ≤ 128) (hpos : 1 ≤ lvl M N) (hle : lvl M N ≤ M) :
    DpfEvalAllCorrect prg lvl M N ↔ M ≤ 32 ∨ lvl M N = M := by
  have hterm : getTerminateLevel lvl true M N = lvl M N := Nat.min_eq_right hle
  constructor
  · intro h
    by_contra hr
    exact not_dpfEvalAllCorrect prg lvl hM hterm hr h
  · intro hr
    exact dpfEvalAllCorrect_of_inRange prg lvl hr hpos hM hN hterm

/-- For `M = 8` and `N = 32` the terminate level is `7`, and the shift is in range. -/
theorem dpfEvalAllCorrect_eight :
    DpfEvalAllCorrect (fun _ seed i => seed + i) (fun _ _ => 7) 8 32 :=
  (dpfEvalAllCorrect_iff _ _ (by decide) (by decide) (by decide) (by decide)).mpr (by decide)

/-- Two widths out of range. For `M = 33` and `N = 8` the terminate level is `31`: every leaf
expands into four outputs, and `2 << 31` and `3 << 31` wrap to `0` and `2 ^ 31`. For `M = 64`
and `N = 8` it is `62`. -/
theorem not_dpfEvalAllCorrect_early :
    ¬DpfEvalAllCorrect (fun _ seed i => seed + i) (fun _ _ => 31) 33 8 ∧
      ¬DpfEvalAllCorrect (fun _ seed i => seed + i) (fun _ _ => 62) 64 8 :=
  ⟨not_dpfEvalAllCorrect _ _ (by decide) rfl (by decide),
    not_dpfEvalAllCorrect _ _ (by decide) rfl (by decide)⟩

end Yacl.Crypto
