import Yacl.Base.Span
import Yacl.Io.BristolFashion
import Yacl.Lib.Bytes

/-!
# The plain executor of circuits

`PlainExecutor` of `yacl/utils/circuit_executor.cc`, with the inputs and outputs that are unsigned
integers of `w` bits. Bit sets are lists of bits here. An access past the end of one is undefined,
and so is `*result.data()` for a bit set without bits, which has no first block.

`Exec` computes the solution of the circuit's equations (`PlainExecutor.exec_ok`). `Finalize` walks
over the widths of the output values **from the first one**, but over the wires, and over the
outputs, from the last one. So output value `v` is read with the width of the value at the mirrored
place (`mirroredValue`), and the results are right for all circuits with given widths if and only if
the list of widths is a palindrome without zeros.
-/

open Bits Bytes Loop StraightLine

namespace Yacl.Utils

open Io

/-- `PlainExecutor`. -/
structure PlainExecutor where
  /-- `wires_`. -/
  wires : List Bool
  /-- `circ_`. -/
  circ : BFCircuit

/-- The difference of two numbers of type `size_t`. -/
def sizeSub (a b : ℕ) : ℕ := (a + 2 ^ 64 - b) % 2 ^ 64

/-- The bits of an integer in memory. -/
def valueBits {w : ℕ} (x : BitVec w) : List Bool := (List.range w).map x.getLsbD

/-- `*result.data()`: the first block of a bit set. -/
def firstBlock (w : ℕ) (bits : List Bool) : Except Exception (BitVec w) := do
  definedIf (bits ≠ [])
  pure (bitsOf w fun j => bits.getD j false)

namespace PlainExecutor

variable {w : ℕ}

/-- `SetupInputs(Span<T>)`. -/
def setupInputs (e : PlainExecutor) (inputs : List (BitVec w)) :
    Except Exception PlainExecutor := do
  enforce (inputs.length = e.circ.niv) "inputs.size() == circ_->niv" ""
  let inputWires := inputs.flatMap valueBits
  pure { e with wires := vecResize (e.wires ++ inputWires) e.circ.nw false }

/-- A gate of `Exec`. -/
def execGate (wires : List Bool) (gate : Gate) : Except Exception (List Bool) := do
  match gate.op with
  | .xor =>
    let iw0 ← vecGet wires (← vecGet gate.iw 0)
    let iw1 ← vecGet wires (← vecGet gate.iw 1)
    vecSet wires (← vecGet gate.ow 0) (iw0 ^^ iw1)
  | .and =>
    let iw0 ← vecGet wires (← vecGet gate.iw 0)
    let iw1 ← vecGet wires (← vecGet gate.iw 1)
    vecSet wires (← vecGet gate.ow 0) (iw0 && iw1)
  | .inv =>
    let iw0 ← vecGet wires (← vecGet gate.iw 0)
    vecSet wires (← vecGet gate.ow 0) (!iw0)
  | .eq =>
    let value ← vecGet gate.iw 0
    vecSet wires (← vecGet gate.ow 0) (decide (value ≠ 0))
  | .eqw =>
    let iw0 ← vecGet wires (← vecGet gate.iw 0)
    vecSet wires (← vecGet gate.ow 0) iw0
  | .mand => throw (.runtimeError "Unimplemented MAND gate")

/-- `Exec`. -/
def exec (e : PlainExecutor) : Except Exception PlainExecutor := do
  let wires ← e.circ.gates.foldlM execGate e.wires
  pure { e with wires }

/-- The loop of `Finalize` that fills `result` from the `n` wires before wire `index`. -/
def resultBits (wires : List Bool) (index n : ℕ) : Except Exception (List Bool) :=
  forLoop n (fun j result => do
    let bit ← vecGet wires ((sizeSub index n + j) % 2 ^ 64)
    vecSet result j bit) (List.replicate n false)

/-- An output value of `Finalize`. The state has the outputs and `index`. -/
def finalizeStep (e : PlainExecutor) (i : ℕ) (s : List (BitVec w) × ℕ) :
    Except Exception (List (BitVec w) × ℕ) := do
  let n ← vecGet e.circ.now i
  let result ← resultBits e.wires s.2 n
  let block ← firstBlock w result
  let outputs ← vecSet s.1 (e.circ.nov - i - 1) block
  pure (outputs, sizeSub s.2 n)

/-- `Finalize(Span<T>)`. -/
def finalize (e : PlainExecutor) (outputs : List (BitVec w)) :
    Except Exception (List (BitVec w)) := do
  enforce (e.circ.nov ≤ outputs.length) "outputs.size() >= circ_->nov" ""
  enforce (∀ n ∈ e.circ.now, n ≤ w) ("std::all_of(circ_->now.begin(), circ_->now.end(), " ++
    "[](const auto n) \x7b return n <= sizeof(T) * 8; \x7d)") ""
  let s ← forLoop e.circ.nov e.finalizeStep (outputs, e.wires.length)
  pure s.1

/-- The three calls on a new executor that has loaded the circuit. -/
def runFresh (C : BFCircuit) (inputs outputs : List (BitVec w)) :
    Except Exception (List (BitVec w)) := do
  let e ← setupInputs ⟨[], C⟩ inputs
  let e ← e.exec
  e.finalize outputs

/-! ### `SetupInputs` -/

theorem sizeSub_of_le {a b : ℕ} (hb : b ≤ a) (ha : a < 2 ^ 64) : sizeSub a b = a - b := by
  rw [sizeSub]
  omega

variable {inputs : List (BitVec w)} {v : ℕ}

theorem getElem?_inputWires {j : ℕ} {x : BitVec w} (hx : inputs[v]? = some x) (hj : j < w) :
    (inputs.flatMap valueBits)[w * v + j]? = some (x.getLsbD j) := by
  rw [getElem?_flatMap_of_length (fun x => by simp [valueBits]) hj, hx]
  simp [valueBits, hj]

theorem wire_lt {j : ℕ} {x : BitVec w} (hx : inputs[v]? = some x) (hj : j < w) :
    w * v + j < w * inputs.length := by
  have hv := Nat.mul_le_mul_left w (Nat.succ_le_of_lt (List.getElem?_eq_some_iff.mp hx).1)
  rw [Nat.mul_succ] at hv
  omega

variable {C : BFCircuit}

theorem setupInputs_ok (hlen : inputs.length = C.niv) (hnw : w * C.niv ≤ C.nw) :
    ∃ wires, setupInputs ⟨[], C⟩ inputs = .ok ⟨wires, C⟩ ∧ wires.length = C.nw ∧
      ∀ v x, inputs[v]? = some x → ∀ j < w, wires.getD (w * v + j) false = x.getLsbD j := by
  refine ⟨vecResize (inputs.flatMap valueBits) C.nw false, ?_, length_vecResize .., ?_⟩
  · rw [setupInputs, enforce_of_pos hlen]
    rfl
  · intro v x hx j hj
    have hlt : w * v + j < C.nw := (wire_lt hx hj).trans_le (hlen ▸ hnw)
    rw [List.getD_eq_getElem?_getD, getElem?_vecResize hlt (getElem?_inputWires hx hj)]
    rfl

/-! ### `Exec` -/

variable {gate : Gate}

theorem vecGet_in0 (h : 0 < gate.iw.length) : vecGet gate.iw 0 = .ok gate.in0 :=
  vecGet_getD h 0

theorem vecGet_out {nw : ℕ} (h : gate.WellShaped nw) : vecGet gate.ow 0 = .ok gate.out :=
  vecGet_getD (h.single ▸ Nat.one_pos) 0

variable {wires : List Bool}

theorem execGate_ok (h : gate.WellShaped wires.length)
    (hreads : ∀ a ∈ gate.wires, a < wires.length) :
    execGate wires gate = .ok (wires.set gate.out (gate.value fun k => wires.getD k false)) := by
  have hset := fun b => vecSet_of_lt h.lt b
  have hget : ∀ a ∈ gate.wires, vecGet wires a = .ok (wires.getD a false) :=
    fun a ha => vecGet_getD (hreads a ha) false
  have harity := h.arity_eq
  rw [execGate, Gate.value, vecGet_out h]
  rw [Gate.wires] at hget
  cases hcase : gate.op <;> simp only [hcase] at hget harity ⊢
  case mand => exact absurd hcase h.op_ne
  case eq =>
    have hconst : decide (gate.in0 ≠ 0) = decide (gate.in0 = 1) :=
      decide_eq_decide.mpr (by have := h.const hcase; omega)
    rw [vecGet_in0 (by rw [harity]; decide), ok_bind, ok_bind, hset, hconst]
  case inv | eqw =>
    rw [vecGet_in0 (by rw [harity]; decide), ok_bind, hget _ (by simp), ok_bind, ok_bind, hset]
  case xor | and =>
    have hin1 : vecGet gate.iw 1 = .ok gate.in1 := vecGet_getD (by rw [harity]; decide) 0
    rw [vecGet_in0 (by rw [harity]; decide), hin1, ok_bind, hget _ (by simp), ok_bind, ok_bind,
      hget _ (by simp), ok_bind, ok_bind, hset]

theorem getD_set_out (h : gate.out < wires.length) (b : Bool) :
    (fun k => (wires.set gate.out b).getD k false) =
      Function.update (fun k => wires.getD k false) gate.out b := by
  funext k
  rw [List.getD_eq_getElem?_getD, List.getElem?_set]
  by_cases hk : k = gate.out
  · subst hk
    rw [if_pos rfl, if_pos h, Function.update_self]
    rfl
  · rw [if_neg (Ne.symm hk), Function.update_of_ne hk, List.getD_eq_getElem?_getD]

/-- **`Exec` runs the circuit as a straight line program.** -/
theorem foldlM_execGate_ok {gates : List Gate} {D : Set ℕ}
    (hshape : ∀ gate ∈ gates, gate.WellShaped wires.length)
    (hordered : Ordered D (gates.map Gate.instr)) (hD : ∀ k ∈ D, k < wires.length) :
    ∃ wires', gates.foldlM execGate wires = .ok wires' ∧ wires'.length = wires.length ∧
      ∀ k, wires'.getD k false =
        StraightLine.exec (fun k => wires.getD k false) (gates.map Gate.instr) k := by
  induction gates generalizing D wires with
  | nil => exact ⟨wires, rfl, rfl, fun k => rfl⟩
  | cons gate gates ih =>
    have hgate := hshape gate List.mem_cons_self
    obtain ⟨⟨hreads, -⟩, hrest⟩ := hordered
    have hlen : (wires.set gate.out (gate.value fun k => wires.getD k false)).length =
        wires.length := List.length_set
    have hshape' : ∀ g ∈ gates, g.WellShaped
        (wires.set gate.out (gate.value fun k => wires.getD k false)).length := fun g hg =>
      hlen.symm ▸ hshape g (List.mem_cons_of_mem gate hg)
    obtain ⟨wires', hfold, hlen', hval⟩ := ih hshape' hrest fun k hk => by
      rw [hlen]
      rcases Set.mem_insert_iff.mp hk with rfl | hk
      · exact hgate.lt
      · exact hD k hk
    refine ⟨wires', ?_, hlen'.trans hlen, fun k => ?_⟩
    · rw [List.foldlM_cons, execGate_ok hgate fun a ha => hD a (hreads ha)]
      exact hfold
    · rw [hval k, getD_set_out hgate.lt]
      rfl

/-- **`Exec` computes the solution of the circuit.** The wires that the circuit defines get the
values of any assignment that satisfies it, and there is one. -/
theorem exec_ok (hC : C.WellFormed w) (hlen : inputs.length = C.niv) :
    ∃ wires, (setupInputs ⟨[], C⟩ inputs >>= exec) = .ok ⟨wires, C⟩ ∧ wires.length = C.nw ∧
      C.Satisfies inputs (fun k => wires.getD k false) ∧
      ∀ val, C.Satisfies inputs val →
        ∀ k < C.nw, C.nw - C.now.sum ≤ k → wires.getD k false = val k := by
  obtain ⟨wires₀, hsetup, hlen₀, hinput⟩ := setupInputs_ok hlen hC.inputs_le
  obtain ⟨wires, hexec, hlen', hval⟩ := foldlM_execGate_ok (fun g hg => hlen₀.symm ▸ hC.gates g hg)
    hC.ordered fun k hk => hlen₀.symm ▸ lt_of_lt_of_le hk hC.inputs_le
  have hvalues : (fun k => wires.getD k false) = _ := funext hval
  refine ⟨wires, ?_, hlen'.trans hlen₀, ?_, fun val hval' k hk hle => ?_⟩
  · rw [hsetup, ok_bind, exec, hexec]
    rfl
  · rw [BFCircuit.satisfies_iff, hvalues]
    refine ⟨fun v x hx j hj => ?_, solves_exec hC.ordered _⟩
    rw [← hinput v x hx j hj]
    exact (hval _).trans (exec_of_mem hC.ordered _ (hlen ▸ wire_lt hx hj))
  · obtain ⟨hinput', hsolves⟩ := BFCircuit.satisfies_iff.mp hval'
    rw [hval k]
    refine exec_eq_of_solves hC.ordered hsolves (fun a ha => ?_) k (hC.outputs k hk hle)
    -- an input wire is a bit of an input value
    have hw : 0 < w := Nat.pos_of_ne_zero fun h => by simp [h] at ha
    have hv : a / w < inputs.length := hlen ▸ Nat.div_lt_of_lt_mul ha
    have hx := List.getElem?_eq_getElem hv
    have hj := Nat.mod_lt a hw
    rw [← Nat.div_add_mod a w, hinput _ _ hx _ hj, hinput' _ _ hx _ hj]

/-! ### `Finalize` -/

theorem forLoop_vecSet {α : Type} {n : ℕ} {v : List α} (hlen : v.length = n)
    {body : ℕ → List α → Except Exception (List α)} {f : ℕ → α}
    (hbody : ∀ i < n, ∀ v, body i v = vecSet v i (f i)) :
    forLoop n body v = .ok ((List.range n).map f) := by
  obtain ⟨t, ht, htlen, htget⟩ := forLoop_ok (s := v)
    (fun i t => t.length = n ∧ ∀ k < i, t[k]? = some (f k))
    ⟨hlen, fun k hk => absurd hk (Nat.not_lt_zero k)⟩ fun i hi t ht => by
      obtain ⟨htlen, htget⟩ := ht
      refine ⟨t.set i (f i), (hbody i hi t).trans (vecSet_of_lt (htlen ▸ hi) _), ?_, ?_⟩
      · rw [List.length_set, htlen]
      · intro k hk
        rw [List.getElem?_set]
        by_cases hki : i = k
        · rw [if_pos hki, if_pos (htlen ▸ hi), hki]
        · rw [if_neg hki, htget k (by omega)]
  rw [ht]
  congr 1
  refine List.ext_getElem? fun k => ?_
  by_cases hk : k < n
  · rw [htget k hk]
    simp [hk]
  · rw [List.getElem?_eq_none (by omega), List.getElem?_eq_none (by simpa using hk)]

theorem resultBits_ok {index n : ℕ} (hn : n ≤ index) (hindex : index ≤ wires.length)
    (hlen : wires.length < 2 ^ 64) :
    resultBits wires index n =
      .ok ((List.range n).map fun j => wires.getD (index - n + j) false) := by
  refine forLoop_vecSet List.length_replicate fun j hj v => ?_
  rw [sizeSub_of_le hn (by omega), Nat.mod_eq_of_lt (by omega), vecGet_getD (by omega) false,
    ok_bind]

/-- What `Finalize` writes as output value `v`: the width is that of the value at the mirrored
place, and the widths of the values before that one have been passed. -/
def mirroredValue (C : BFCircuit) (w : ℕ) (val : ℕ → Bool) (v : ℕ) : BitVec w :=
  bitsOf w fun j =>
    decide (j < C.now.getD (C.nov - 1 - v) 0) && val (C.nw - (C.now.take (C.nov - v)).sum + j)

section Finalize

variable {e : PlainExecutor} (hwires : e.wires.length = e.circ.nw) (hnw : e.circ.nw < 2 ^ 32)
  (hnov : e.circ.now.length = e.circ.nov) (hsum : e.circ.now.sum ≤ e.circ.nw)
  (hzero : 0 ∉ e.circ.now)

include hwires hnw hnov hsum hzero

theorem finalizeStep_ok {i : ℕ} (hi : i < e.circ.nov) {outputs : List (BitVec w)}
    (hout : e.circ.nov ≤ outputs.length) :
    e.finalizeStep i (outputs, e.circ.nw - (e.circ.now.take i).sum) =
      .ok (outputs.set (e.circ.nov - 1 - i) (mirroredValue e.circ w
        (fun k => e.wires.getD k false) (e.circ.nov - 1 - i)),
        e.circ.nw - (e.circ.now.take (i + 1)).sum) := by
  have hget := List.getElem?_eq_getElem (hnov.symm ▸ hi : i < e.circ.now.length)
  generalize e.circ.now[i] = n at hget
  have hpos : n ≠ 0 := fun h => hzero (h ▸ List.mem_of_getElem? hget)
  have htake : (e.circ.now.take (i + 1)).sum = (e.circ.now.take i).sum + n := by
    rw [List.take_add_one, hget, Option.toList_some, List.sum_append, List.sum_singleton]
  have hle : (e.circ.now.take (i + 1)).sum ≤ e.circ.nw := by
    have := (e.circ.now.take_append_drop (i + 1)).symm ▸ hsum
    rw [List.sum_append] at this
    omega
  have hblock : bitsOf w (fun j => ((List.range n).map fun j =>
      e.wires.getD (e.circ.nw - (e.circ.now.take i).sum - n + j) false).getD j false) =
      mirroredValue e.circ w (fun k => e.wires.getD k false) (e.circ.nov - 1 - i) := by
    refine bitsOf_congr fun j _ => ?_
    rw [show e.circ.nov - 1 - (e.circ.nov - 1 - i) = i by omega,
      show e.circ.nov - (e.circ.nov - 1 - i) = i + 1 by omega, List.getD_eq_getElem?_getD,
      List.getD_eq_getElem?_getD, hget, htake]
    by_cases hj : j < n
    · simp [hj, Nat.sub_sub]
    · simp [hj]
  have hindex : sizeSub (e.circ.nw - (e.circ.now.take i).sum) n =
      e.circ.nw - (e.circ.now.take (i + 1)).sum := by
    rw [sizeSub_of_le (by omega) (by omega), htake, Nat.sub_sub]
  rw [finalizeStep, vecGet_of_getElem? hget, ok_bind]
  dsimp only
  rw [resultBits_ok (by omega) (by omega) (by omega), ok_bind, firstBlock,
    definedIf_bind (by simpa using hpos), hblock, hindex, pure_bind, Nat.sub_right_comm,
    vecSet_of_lt (by omega)]
  rfl

/-- **`Finalize` writes the mirrored values.** -/
theorem finalize_ok (hwidth : ∀ n ∈ e.circ.now, n ≤ w) {outputs : List (BitVec w)}
    (hout : e.circ.nov ≤ outputs.length) :
    e.finalize outputs = .ok ((List.range e.circ.nov).map
      (mirroredValue e.circ w fun k => e.wires.getD k false) ++ outputs.drop e.circ.nov) := by
  obtain ⟨s, hs, -, hlen, hget⟩ := forLoop_ok
    (s := (outputs, e.wires.length))
    (fun i s => s.2 = e.circ.nw - (e.circ.now.take i).sum ∧ s.1.length = outputs.length ∧
      ∀ v, s.1[v]? = if e.circ.nov - i ≤ v ∧ v < e.circ.nov then
        some (mirroredValue e.circ w (fun k => e.wires.getD k false) v) else outputs[v]?)
    ⟨hwires, rfl, fun v => by rw [if_neg (by omega)]⟩ fun i hi s hs => by
      obtain ⟨outs, index⟩ := s
      obtain ⟨hindex, hlen, hget⟩ := hs
      dsimp only at hindex hlen hget
      subst hindex
      refine ⟨_, finalizeStep_ok hwires hnw hnov hsum hzero hi (hlen.symm ▸ hout), rfl, ?_, ?_⟩
      · rw [List.length_set, hlen]
      · intro v
        rw [List.getElem?_set, hget]
        by_cases hv : e.circ.nov - 1 - i = v
        · rw [if_pos hv, if_pos (by omega), if_pos (by omega), hv]
        · rw [if_neg hv]
          exact if_congr (by omega) rfl rfl
  rw [finalize, enforce_of_pos hout, enforce_bind hwidth, hs]
  refine congrArg Except.ok (List.ext_getElem? fun v => ?_)
  rw [hget, Nat.sub_self]
  by_cases hv : v < e.circ.nov
  · rw [List.getElem?_append_left (by simpa using hv)]
    simp [hv]
  · rw [if_neg fun h => hv h.2, List.getElem?_append_right (by simpa using hv), List.length_map,
      List.length_range, List.getElem?_drop, Nat.add_sub_cancel' (not_lt.mp hv)]

end Finalize

theorem zero_notMem_of_finalize {e : PlainExecutor} (hnov : e.circ.now.length = e.circ.nov)
    {outputs outputs' : List (BitVec w)} (h : e.finalize outputs = .ok outputs') :
    0 ∉ e.circ.now := by
  obtain ⟨-, h⟩ := of_enforce_bind h
  obtain ⟨-, h⟩ := of_enforce_bind h
  obtain ⟨s, hs, -⟩ := of_bind_eq_ok h
  have hpos := forLoop_of_ok hs (fun i _ => ∀ k < i, e.circ.now[k]? ≠ some 0)
    (fun k hk => absurd hk (Nat.not_lt_zero k)) fun i hi t t' hinv hstep => by
      obtain ⟨n, hn, hstep⟩ := of_bind_eq_ok hstep
      obtain ⟨result, hresult, hstep⟩ := of_bind_eq_ok hstep
      obtain ⟨block, hblock, -⟩ := of_bind_eq_ok hstep
      intro k hk hzero
      rcases Nat.lt_succ_iff_lt_or_eq.mp hk with hk | rfl
      · exact hinv k hk hzero
      · obtain rfl : n = 0 := Option.some_inj.mp ((of_vecGet hn).symm.trans hzero)
        -- the bit set has no block
        obtain rfl : [] = result := Except.ok.inj hresult
        nomatch hblock
  intro hmem
  obtain ⟨k, hk⟩ := List.mem_iff_getElem?.mp hmem
  exact hpos k (hnov ▸ (List.getElem?_eq_some_iff.mp hk).1) hk

/-! ### The results of a run -/

theorem mirroredValue_congr (hnov : C.now.length = C.nov) (hsum : C.now.sum ≤ C.nw) {f g : ℕ → Bool}
    (h : ∀ k < C.nw, C.nw - C.now.sum ≤ k → f k = g k) (hv : v < C.nov) :
    mirroredValue C w f v = mirroredValue C w g v := by
  refine bitsOf_congr fun j _ => ?_
  by_cases hj : j < C.now.getD (C.nov - 1 - v) 0
  · have hget := List.getElem?_eq_getElem (by omega : C.nov - 1 - v < C.now.length)
    rw [List.getD_eq_getElem?_getD, hget, Option.getD_some] at hj
    have htake : (C.now.take (C.nov - v)).sum =
        (C.now.take (C.nov - 1 - v)).sum + C.now[C.nov - 1 - v] := by
      rw [show C.nov - v = C.nov - 1 - v + 1 by omega, List.take_add_one, hget,
        Option.toList_some, List.sum_append, List.sum_singleton]
    have hle : (C.now.take (C.nov - v)).sum + (C.now.drop (C.nov - v)).sum = C.now.sum := by
      rw [← List.sum_append, List.take_append_drop]
    rw [h _ (by omega) (by omega)]
  · rw [decide_eq_false hj, Bool.false_and, Bool.false_and]

/-- **A run gives the mirrored values** of the solution. -/
theorem runFresh_ok (hC : C.WellFormed w) (hzero : 0 ∉ C.now) {outputs : List (BitVec w)}
    (hlen : inputs.length = C.niv) (hout : C.nov ≤ outputs.length) {val : ℕ → Bool}
    (hval : C.Satisfies inputs val) :
    runFresh C inputs outputs =
      .ok ((List.range C.nov).map (mirroredValue C w val) ++ outputs.drop C.nov) := by
  obtain ⟨wires, hexec, hwires, -, heq⟩ := exec_ok hC hlen
  obtain ⟨e, hsetup, hexec⟩ := of_bind_eq_ok hexec
  rw [runFresh, hsetup, ok_bind, hexec, ok_bind,
    finalize_ok hwires hC.nw_lt hC.nov_eq hC.outputs_le hzero hC.width_le hout]
  congr 2
  refine List.map_congr_left fun v hv => ?_
  exact mirroredValue_congr hC.nov_eq hC.outputs_le (heq val hval) (List.mem_range.mp hv)

theorem outputValue_congr (hnov : C.now.length = C.nov) (hsum : C.now.sum ≤ C.nw) {f g : ℕ → Bool}
    (h : ∀ k < C.nw, C.nw - C.now.sum ≤ k → f k = g k) (hv : v < C.nov) :
    C.outputValue w f v = C.outputValue w g v := by
  refine bitsOf_congr fun j _ => ?_
  by_cases hj : j < C.now.getD v 0
  · have hget := List.getElem?_eq_getElem (hnov.symm ▸ hv : v < C.now.length)
    rw [List.getD_eq_getElem?_getD, hget, Option.getD_some] at hj
    have hdrop : (C.now.drop v).sum = C.now[v] + (C.now.drop (v + 1)).sum := by
      rw [List.drop_eq_getElem_cons (hnov.symm ▸ hv), List.sum_cons]
    have hle : (C.now.take v).sum + (C.now.drop v).sum = C.now.sum := by
      rw [← List.sum_append, List.take_append_drop]
    rw [h _ (by omega) (by omega)]
  · rw [decide_eq_false hj, Bool.false_and, Bool.false_and]

theorem mirroredValue_eq (hnov : C.now.length = C.nov) (hpal : C.now.reverse = C.now)
    (val : ℕ → Bool) (hv : v < C.nov) : mirroredValue C w val v = C.outputValue w val v := by
  have hwidth : C.now.getD (C.nov - 1 - v) 0 = C.now.getD v 0 := by
    rw [List.getD_eq_getElem?_getD, List.getD_eq_getElem?_getD, ← hnov,
      ← List.getElem?_reverse (hnov ▸ hv), hpal]
  have hsum : (C.now.take (C.nov - v)).sum = (C.now.drop v).sum := by
    conv_lhs => rw [← hpal, List.take_reverse, List.sum_reverse]
    rw [hnov, Nat.sub_sub_self hv.le]
  rw [mirroredValue, BFCircuit.outputValue, hwidth, hsum]

/-- **A run of the circuit is right**: the gates have a solution, and whatever it is, the outputs
are the numbers on the output wires. -/
def Correct (w : ℕ) (C : BFCircuit) : Prop :=
  ∀ inputs outputs : List (BitVec w), inputs.length = C.niv → C.nov ≤ outputs.length →
    (∃ val, C.Satisfies inputs val) ∧ ∀ val, C.Satisfies inputs val →
      runFresh C inputs outputs = .ok (C.outputValues w val ++ outputs.drop C.nov)

theorem correct_of_palindrome (hC : C.WellFormed w) (hpal : C.now.reverse = C.now)
    (hzero : 0 ∉ C.now) : Correct w C := by
  intro inputs outputs hlen hout
  refine ⟨?_, fun val hval => ?_⟩
  · obtain ⟨wires, -, -, hval, -⟩ := exec_ok hC hlen
    exact ⟨_, hval⟩
  · rw [runFresh_ok hC hzero hlen hout hval]
    congr 2
    exact List.map_congr_left fun v hv =>
      mirroredValue_eq hC.nov_eq hpal val (List.mem_range.mp hv)

/-! ### Circuits that are evaluated wrongly -/

theorem zero_notMem_of_correct (hC : C.WellFormed w) (h : Correct w C) : 0 ∉ C.now := by
  obtain ⟨⟨val, hval⟩, hrun⟩ := h (List.replicate C.niv 0) (List.replicate C.nov 0)
    List.length_replicate List.length_replicate.ge
  obtain ⟨wires, hexec, -⟩ := exec_ok hC (List.length_replicate)
  have hok := hrun val hval
  rw [runFresh, ← bind_assoc, hexec] at hok
  exact zero_notMem_of_finalize hC.nov_eq hok

theorem exists_mirrored_eq_of_correct (hC : C.WellFormed w) (h : Correct w C) :
    ∃ inputs : List (BitVec w), ∃ val, C.Satisfies inputs val ∧
      ∀ v < C.nov, mirroredValue C w val v = C.outputValue w val v := by
  obtain ⟨⟨val, hval⟩, hrun⟩ := h (List.replicate C.niv 0) (List.replicate C.nov 0)
    List.length_replicate List.length_replicate.ge
  have hok := hrun val hval
  rw [runFresh_ok hC (zero_notMem_of_correct hC h) List.length_replicate
    List.length_replicate.ge hval] at hok
  have hlist := List.append_cancel_right (Except.ok.inj hok)
  exact ⟨_, val, hval, fun v hv => List.map_inj_left.mp hlist v (List.mem_range.mpr hv)⟩

/-- The circuit that puts the constant `1` on all output wires. -/
def onesCircuit (w niv : ℕ) (now : List ℕ) : BFCircuit where
  nw := w * niv + now.sum
  niv := niv
  niw := List.replicate niv w
  nov := now.length
  now := now
  gates := (List.range' (w * niv) now.sum).map fun k => ⟨[1], [k], .eq⟩

theorem ordered_ones (a n : ℕ) :
    Ordered {k | k < a} (((List.range' a n).map fun k => (⟨[1], [k], .eq⟩ : Gate)).map
      Gate.instr) := by
  induction n generalizing a with
  | zero => trivial
  | succ n ih =>
    have hinsert : insert a {k | k < a} = {k | k < a + 1} := by
      ext k
      rw [Set.mem_insert_iff, Set.mem_ofPred_eq, Set.mem_ofPred_eq]
      omega
    refine ⟨⟨fun k hk => (nomatch hk), lt_irrefl a⟩, ?_⟩
    rw [show (⟨[1], [a], .eq⟩ : Gate).instr.out = a from rfl, hinsert]
    exact ih (a + 1)

variable {niv : ℕ} {now : List ℕ}

theorem wellFormed_onesCircuit (hwidth : ∀ n ∈ now, n ≤ w) (hsize : w * niv + now.sum < 2 ^ 32) :
    (onesCircuit w niv now).WellFormed w where
  niw_eq := rfl
  nov_eq := rfl
  width_le := hwidth
  inputs_le := Nat.le_add_right _ _
  outputs_le := Nat.le_add_left _ _
  nw_lt := hsize
  gates gate hgate := by
    obtain ⟨k, hk, rfl⟩ := List.mem_map.mp hgate
    rw [List.mem_range'_1] at hk
    exact ⟨Op.noConfusion, rfl, rfl, fun _ => le_rfl, hk.2⟩
  ordered := ordered_ones _ _
  outputs k hk hle := by
    refine .inr ⟨(⟨[1], [k], .eq⟩ : Gate).instr, List.mem_map_of_mem ?_, rfl⟩
    refine List.mem_map.mpr ⟨k, List.mem_range'_1.mpr ⟨?_, hk⟩, rfl⟩
    dsimp only [onesCircuit] at hle
    omega

theorem ones_of_satisfies {val : ℕ → Bool} (h : (onesCircuit w niv now).Satisfies inputs val)
    {k : ℕ} (hk : k < w * niv + now.sum) (hle : w * niv ≤ k) : val k = true :=
  h.gate ⟨[1], [k], .eq⟩ (List.mem_map.mpr ⟨k, List.mem_range'_1.mpr ⟨hle, hk⟩, rfl⟩)

theorem eq_of_bitsOf_eq {a b : ℕ} (ha : a ≤ w) (hb : b ≤ w)
    (h : bitsOf w (fun j => decide (j < a)) = bitsOf w fun j => decide (j < b)) : a = b := by
  by_contra hne
  have hlt : min a b < w := by omega
  have hbit := congrArg (BitVec.getLsbD · (min a b)) h
  simp only [getLsbD_bitsOf_of_lt hlt, decide_eq_decide] at hbit
  omega

/-- The widths of a circuit of ones that is evaluated rightly are the mirrored ones. -/
theorem width_eq_of_correct (hwidth : ∀ n ∈ now, n ≤ w) (hsize : w * niv + now.sum < 2 ^ 32)
    (h : Correct w (onesCircuit w niv now)) (hv : v < now.length) :
    now.getD (now.length - 1 - v) 0 = now.getD v 0 := by
  have hC := wellFormed_onesCircuit hwidth hsize
  obtain ⟨inputs, val, hval, heq⟩ := exists_mirrored_eq_of_correct hC h
  have hones : ∀ k < w * niv + now.sum, w * niv + now.sum - now.sum ≤ k →
      val k = (fun _ => true) k := fun k hk hle => ones_of_satisfies hval hk (by omega)
  have hvalue := heq v hv
  rw [mirroredValue_congr hC.nov_eq hC.outputs_le hones hv,
    outputValue_congr hC.nov_eq hC.outputs_le hones hv, mirroredValue,
    BFCircuit.outputValue] at hvalue
  simp only [Bool.and_true] at hvalue
  have hle : ∀ i, now.getD i 0 ≤ w := fun i => by
    rw [List.getD_eq_getElem?_getD]
    cases hi : now[i]? with
    | none => exact Nat.zero_le w
    | some n => exact hwidth n (List.mem_of_getElem? hi)
  exact eq_of_bitsOf_eq (hle _) (hle _) hvalue

theorem reverse_eq_of_getD (h : ∀ v < now.length, now.getD (now.length - 1 - v) 0 = now.getD v 0) :
    now.reverse = now := by
  refine List.ext_getElem List.length_reverse fun v _ hv => ?_
  have := h v hv
  rw [List.getElem_reverse]
  rwa [List.getD_eq_getElem?_getD, List.getD_eq_getElem?_getD, List.getElem?_eq_getElem hv,
    List.getElem?_eq_getElem (by omega)] at this

/-- **The executor evaluates circuits rightly** if and only if the widths of their output values
are a palindrome without zeros. -/
theorem correct_iff (niv : ℕ) (now : List ℕ) (hwidth : ∀ n ∈ now, n ≤ w)
    (hsize : w * niv + now.sum < 2 ^ 32) :
    (∀ C : BFCircuit, C.niv = niv → C.now = now → C.WellFormed w → Correct w C) ↔
      now.reverse = now ∧ 0 ∉ now := by
  constructor
  · intro h
    have hC := wellFormed_onesCircuit hwidth hsize
    have hcorrect := h (onesCircuit w niv now) rfl rfl hC
    exact ⟨reverse_eq_of_getD fun v hv => width_eq_of_correct hwidth hsize hcorrect hv,
      zero_notMem_of_correct hC hcorrect⟩
  · rintro ⟨hpal, hzero⟩ C - rfl hC
    exact correct_of_palindrome hC hpal hzero

/-- A circuit with two inputs and one output of 64 bits is evaluated rightly. -/
theorem correct_of_single_output : Correct 64 (onesCircuit 64 2 [64]) :=
  (correct_iff 2 [64] (by decide) (by decide)).mpr ⟨rfl, by decide⟩ (onesCircuit 64 2 [64]) rfl rfl
    (wellFormed_onesCircuit (by decide) (by decide))

/-- Two output values of one and two bits, which are `1` and `3`, come out as `3` and `1`. -/
theorem not_correct_of_unequal_widths : (onesCircuit 64 1 [1, 2]).WellFormed 64 ∧
    ¬Correct 64 (onesCircuit 64 1 [1, 2]) ∧
    runFresh (onesCircuit 64 1 [1, 2]) [(0 : BitVec 64)] [0, 0] = .ok [3, 1] := by
  have hwidth : ∀ n ∈ [1, 2], n ≤ 64 := by decide
  have hsize : 64 * 1 + [1, 2].sum < 2 ^ 32 := by decide
  refine ⟨wellFormed_onesCircuit hwidth hsize, fun h => ?_, by decide +kernel⟩
  have heq := width_eq_of_correct hwidth hsize h (v := 0) (by decide)
  exact absurd heq (by decide)

end PlainExecutor

end Yacl.Utils
