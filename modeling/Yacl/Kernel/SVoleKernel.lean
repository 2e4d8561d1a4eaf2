import Yacl.Base.Span
import Yacl.Lib.Tiling
import Yacl.Math.GaloisField

/-!
# The kernel for subfield vector OLE

The model of `SVoleKernel` (`yacl/kernel/svole_kernel.cc`). A request is cut into steps, and a step
is cut into one piece for each thread; on each piece a silent vector OLE runs. The two parties cut
on their own, so the pieces have to be the same on both sides.

The steps of the receiver are consecutive. The steps of the sender **all** are at the place of the
last one. So the pieces are the same on both sides and tile the output exactly if there is no more
than one step (`evalStreaming_iff`).
-/

open Loop Tiling Yacl.Math

namespace Yacl.Crypto

/-- `core_`: the silent vector OLE of the party. -/
inductive SVoleCore where
  /-- `std::monostate`. -/
  | monostate
  /-- `SilentVoleSender`. -/
  | sender
  /-- `SilentVoleReceiver`. -/
  | receiver
deriving DecidableEq, Repr

/-- `SVoleKernel`. -/
structure SVoleKernel where
  /-- `inited_`. -/
  inited : Bool
  /-- `core_`. -/
  core : SVoleCore
deriving DecidableEq, Repr

/-- `span.subspan(pos, len)`, which cuts a length that is too large. -/
def pieceSubspan (span : Piece) (pos len : ℕ) : Except Exception Piece :=
  if pos ≤ span.len then pure ⟨span.off + pos, min (span.len - pos) len⟩ else throw .outOfRange

/-- The thread-local spans of `eval_multithread`. -/
def threadSpans (out : Piece) (threads : ℕ) : Except Exception (List Piece) := do
  let iterSize := out.len / threads
  let lastSize := out.len - iterSize * (threads - 1)
  let front ← (List.range (threads - 1)).mapM fun i => pieceSubspan out (iterSize * i) iterSize
  let last ← pieceSubspan out (iterSize * (threads - 1)) lastSize
  pure (front ++ [last])

namespace SVoleKernel

/-- `eval_multithread` of the sender: the spans for `SfSend`. -/
def evalMultithreadSend (self : SVoleKernel) (outC : Piece) (threads : ℕ) :
    Except Exception (List Piece) := do
  enforce (self.inited = true) "inited_" ""
  enforce (self.core = .sender) "std::holds_alternative<SilentVoleSender>(core_)" ""
  enforce (threads ≥ 1) "threads >= 1" ""
  threadSpans outC threads

/-- `eval_multithread` of the receiver: the spans for `SfRecv`, which are the same for `a` and for
`b`. -/
def evalMultithreadRecv (self : SVoleKernel) (outA : Piece) (threads : ℕ) :
    Except Exception (List Piece) := do
  enforce (self.inited = true) "inited_" ""
  enforce (self.core = .receiver) "std::holds_alternative<SilentVoleReceiver>(core_)" ""
  enforce (threads ≥ 1) "threads >= 1" ""
  threadSpans outA threads

/-- `step_num`. -/
def stepNum (size stepSize : ℕ) : ℕ := (size + stepSize - 1) / stepSize

/-- `local_step_size`. -/
def localStepSize (size stepSize i : ℕ) : ℕ :=
  if i = stepNum size stepSize - 1 then size - stepSize * (stepNum size stepSize - 1) else stepSize

/-- `eval_streaming` of the sender: the spans on which `SfSend` runs, in their order. -/
def evalStreamingSend (self : SVoleKernel) (size threads stepSize : ℕ) :
    Except Exception (List Piece) := do
  enforce (self.inited = true) "inited_" ""
  let steps ← (List.range (stepNum size stepSize)).mapM fun i => do
    -- the position does not depend on the step
    let step ← pieceSubspan ⟨0, size⟩ (stepSize * (stepNum size stepSize - 1))
      (localStepSize size stepSize i)
    self.evalMultithreadSend step threads
  pure steps.flatten

/-- `eval_streaming` of the receiver, with spans of the sizes `size` and `sizeB` for `a` and `b`:
the spans on which `SfRecv` runs, in their order. -/
def evalStreamingRecv (self : SVoleKernel) (size sizeB threads stepSize : ℕ) :
    Except Exception (List Piece) := do
  enforce (self.inited = true) "inited_" ""
  enforce (size = sizeB) "out_a.size() == out_b.size()" ""
  let steps ← (List.range (stepNum size stepSize)).mapM fun i => do
    let step ← pieceSubspan ⟨0, size⟩ (stepSize * i) (localStepSize size stepSize i)
    self.evalMultithreadRecv step threads
  pure steps.flatten

end SVoleKernel

/-! ### The pieces of a step -/

theorem pieceSubspan_eq {span : Piece} {pos len : ℕ} (h : pos + len ≤ span.len) :
    pieceSubspan span pos len = .ok ⟨span.off + pos, len⟩ := by
  rw [pieceSubspan, if_pos (by omega), Nat.min_eq_right (by omega)]
  rfl

/-- **The threads** of a step tile it. -/
theorem exists_threadSpans (out : Piece) {threads : ℕ} (h : 1 ≤ threads) :
    ∃ pieces, threadSpans out threads = .ok pieces ∧ Tiles out.off pieces (out.off + out.len) := by
  have hfit : out.len / threads * (threads - 1) + out.len / threads ≤ out.len := by
    rw [← Nat.mul_succ, Nat.succ_eq_add_one, Nat.sub_add_cancel h]
    exact Nat.div_mul_le_self _ _
  rw [threadSpans]
  generalize out.len / threads = iterSize at hfit
  have hfront : ((List.range (threads - 1)).mapM fun i =>
      pieceSubspan out (iterSize * i) iterSize) =
        .ok ((List.range (threads - 1)).map fun i => ⟨out.off + iterSize * i, iterSize⟩) := by
    refine mapM_eq_ok fun i hi => pieceSubspan_eq ?_
    have hle : iterSize * (i + 1) ≤ iterSize * (threads - 1) :=
      Nat.mul_le_mul_left _ (List.mem_range.1 hi)
    rw [Nat.mul_succ] at hle
    omega
  have hsum : iterSize * (threads - 1) + (out.len - iterSize * (threads - 1)) = out.len := by omega
  rw [hfront, pieceSubspan_eq hsum.le]
  refine ⟨_, rfl, (tiles_map_range out.off iterSize (threads - 1)).append ?_⟩
  have htiles := tiles_singleton (out.off + iterSize * (threads - 1))
    (out.len - iterSize * (threads - 1))
  rwa [Nat.add_assoc, hsum] at htiles

/-! ### The steps -/

namespace SVoleKernel

theorem lt_stepNum_iff {size stepSize i : ℕ} (h : 0 < stepSize) :
    i < stepNum size stepSize ↔ stepSize * i < size := by
  rw [stepNum, Nat.lt_iff_add_one_le, Nat.le_div_iff_mul_le h, Nat.succ_mul, Nat.mul_comm i]
  omega

theorem stepSize_mul_add_localStepSize {size stepSize i : ℕ} (h : 0 < stepSize)
    (hi : i < stepNum size stepSize) :
    stepSize * i + localStepSize size stepSize i = min size (stepSize * (i + 1)) := by
  have hlt := (lt_stepNum_iff h).1 hi
  rw [localStepSize]
  split
  · rename_i hlast
    have hend : ¬stepSize * (i + 1) < size := by
      rw [← lt_stepNum_iff h]
      omega
    rw [← hlast]
    omega
  · rename_i hlast
    have hnext : stepSize * (i + 1) < size := (lt_stepNum_iff h).1 (by omega)
    rw [Nat.min_eq_right hnext.le, Nat.mul_succ]

theorem min_stepSize_mul_stepNum {size stepSize : ℕ} (h : 0 < stepSize) :
    min size (stepSize * stepNum size stepSize) = size := by
  refine Nat.min_eq_left (Nat.le_of_not_lt fun hlt => ?_)
  exact absurd ((lt_stepNum_iff h).2 hlt) (Nat.lt_irrefl _)

section Steps

variable {size threads stepSize : ℕ}

theorem evalMultithreadSend_eq (h : 1 ≤ threads) (outC : Piece) :
    evalMultithreadSend ⟨true, .sender⟩ outC threads = threadSpans outC threads := by
  rw [evalMultithreadSend, enforce_bind rfl, enforce_bind rfl, enforce_bind h]

theorem evalMultithreadRecv_eq (h : 1 ≤ threads) (outA : Piece) :
    evalMultithreadRecv ⟨true, .receiver⟩ outA threads = threadSpans outA threads := by
  rw [evalMultithreadRecv, enforce_bind rfl, enforce_bind rfl, enforce_bind h]

/-- **The receiver** goes through the whole output. -/
theorem exists_evalStreamingRecv (hthreads : 1 ≤ threads) (hstep : 0 < stepSize) :
    ∃ pieces, evalStreamingRecv ⟨true, .receiver⟩ size size threads stepSize = .ok pieces ∧
      Tiles 0 pieces size := by
  have hbody : ∀ i ∈ List.range (stepNum size stepSize), ∃ pieces,
      (do
        let step ← pieceSubspan ⟨0, size⟩ (stepSize * i) (localStepSize size stepSize i)
        evalMultithreadRecv ⟨true, .receiver⟩ step threads) = .ok pieces ∧
      Tiles (min size (stepSize * i)) pieces (min size (stepSize * (i + 1))) := by
    intro i hi
    have hi := List.mem_range.1 hi
    have hend := stepSize_mul_add_localStepSize hstep hi
    rw [pieceSubspan_eq (hend.le.trans (Nat.min_le_left _ _)), ok_bind,
      evalMultithreadRecv_eq hthreads]
    obtain ⟨pieces, hpieces, htiles⟩ := exists_threadSpans
      ⟨0 + stepSize * i, localStepSize size stepSize i⟩ hthreads
    refine ⟨pieces, hpieces, ?_⟩
    rwa [Nat.min_eq_right ((lt_stepNum_iff hstep).1 hi).le, ← hend, ← Nat.zero_add (stepSize * i)]
  obtain ⟨g, hg, htiles⟩ := exists_mapM_eq_ok hbody
  refine ⟨(List.range (stepNum size stepSize)).flatMap g, ?_, ?_⟩
  · rw [evalStreamingRecv, enforce_bind rfl, enforce_bind rfl, hg]
    rfl
  · have hall := tiles_flatMap fun i hi => htiles i (List.mem_range.2 hi)
    rwa [Nat.mul_zero, Nat.min_zero, min_stepSize_mul_stepNum hstep] at hall

/-- With at most one step **the sender** cuts as the receiver does. -/
theorem evalStreamingSend_eq (hstep : 0 < stepSize) (h : size ≤ stepSize) :
    evalStreamingSend ⟨true, .sender⟩ size threads stepSize =
      evalStreamingRecv ⟨true, .receiver⟩ size size threads stepSize := by
  have hlast : ∀ i ∈ List.range (stepNum size stepSize), stepNum size stepSize - 1 = i := by
    intro i hi
    have hi := List.mem_range.1 hi
    have hone : ¬1 < stepNum size stepSize := by
      rw [lt_stepNum_iff hstep]
      omega
    omega
  rw [evalStreamingSend, evalStreamingRecv, enforce_bind rfl, enforce_bind rfl, enforce_bind rfl]
  rw [mapM_congr fun i hi => by rw [hlast i hi]]
  rfl

/-- **The pieces of the sender** all lie in the last step. -/
theorem exists_evalStreamingSend (hthreads : 1 ≤ threads) (hstep : 0 < stepSize) :
    ∃ pieces, evalStreamingSend ⟨true, .sender⟩ size threads stepSize = .ok pieces ∧
      ∀ p ∈ pieces, stepSize * (stepNum size stepSize - 1) ≤ p.off := by
  have hbody : ∀ i ∈ List.range (stepNum size stepSize), ∃ pieces,
      (do
        let step ← pieceSubspan ⟨0, size⟩ (stepSize * (stepNum size stepSize - 1))
          (localStepSize size stepSize i)
        evalMultithreadSend ⟨true, .sender⟩ step threads) = .ok pieces ∧
      ∀ p ∈ pieces, stepSize * (stepNum size stepSize - 1) ≤ p.off := by
    intro i hi
    have hi := List.mem_range.1 hi
    have hpos : stepSize * (stepNum size stepSize - 1) < size :=
      (lt_stepNum_iff hstep).1 (by omega)
    rw [pieceSubspan, if_pos hpos.le]
    obtain ⟨pieces, hpieces, htiles⟩ := exists_threadSpans
      ⟨0 + stepSize * (stepNum size stepSize - 1),
        min (size - stepSize * (stepNum size stepSize - 1)) (localStepSize size stepSize i)⟩
      hthreads
    refine ⟨pieces, ?_, fun p hp => by simpa using htiles.le_off hp⟩
    rw [← hpieces]
    exact evalMultithreadSend_eq hthreads _
  obtain ⟨g, hg, hoff⟩ := exists_mapM_eq_ok hbody
  refine ⟨(List.range (stepNum size stepSize)).flatMap g, ?_, fun p hp => ?_⟩
  · rw [evalStreamingSend, hg]
    rfl
  · obtain ⟨i, hi, hp⟩ := List.mem_flatMap.1 hp
    exact hoff i hi p hp

end Steps

end SVoleKernel

/-! ### The vectors -/

/-- The vectors of both parties. -/
structure SVoleVectors where
  /-- `out_c` of the sender. -/
  c : List Uint128
  /-- `out_a` of the receiver. -/
  a : List (BitVec 64)
  /-- `out_b` of the receiver. -/
  b : List Uint128

/-- The silent vector OLEs of the threads. -/
structure SfVole where
  /-- `GetDelta()`. -/
  delta : Uint128
  /-- The outputs of an `SfSend` on a span of the one size and of the `SfRecv` on the other side, on
  a span of the other size. -/
  run : (call sendSize recvSize : ℕ) → Except Exception SVoleVectors

/-- The first `n` entries are correlated: `c = a * delta + b`. -/
def SVoleVectors.Correlated (x : SVoleVectors) (delta : Uint128) (n : ℕ) : Prop :=
  ∀ i < n, x.c.getD i 0 = gf128Mul ((x.a.getD i 0).setWidth 128) delta ^^^ x.b.getD i 0

/-- The vectors have `n` entries. -/
def SVoleVectors.HasSize (x : SVoleVectors) (n : ℕ) : Prop :=
  x.c.length = n ∧ x.a.length = n ∧ x.b.length = n

/-- Calls on spans of the same size return, and their outputs are correlated. -/
def SfVole.Correct (V : SfVole) : Prop :=
  ∀ call n, ∃ y, V.run call n n = .ok y ∧ y.HasSize n ∧ y.Correlated V.delta n

/-- The outputs of a call are written to the spans of the two parties. -/
def SVoleVectors.write (x : SVoleVectors) (send recv : Piece) (y : SVoleVectors) :
    SVoleVectors where
  c := overwrite x.c send.off send.len fun j => y.c.getD j 0
  a := overwrite x.a recv.off recv.len fun j => y.a.getD j 0
  b := overwrite x.b recv.off recv.len fun j => y.b.getD j 0

/-- The calls of both parties, one after the other. A party that has calls left when the other one
has none waits for ever. -/
def SfVole.runPieces (V : SfVole) :
    (call : ℕ) → (send recv : List Piece) → SVoleVectors → Except Exception SVoleVectors
  | _, [], [], x => pure x
  | call, p :: send, q :: recv, x => do
    let y ← V.run call p.len q.len
    V.runPieces (call + 1) send recv (x.write p q y)
  | _, _, _, _ => throw .nonTermination

theorem SVoleVectors.HasSize.write {x : SVoleVectors} {n : ℕ} (h : x.HasSize n) (p : Piece)
    (y : SVoleVectors) : (x.write p p y).HasSize n := by
  refine ⟨?_, ?_, ?_⟩ <;> dsimp only [SVoleVectors.write] <;> rw [length_overwrite]
  · exact h.1
  · exact h.2.1
  · exact h.2.2

theorem SVoleVectors.Correlated.write {x y : SVoleVectors} {delta : Uint128} {n : ℕ} {p : Piece}
    (h : x.Correlated delta p.off) (hsize : x.HasSize n) (hp : p.off + p.len ≤ n)
    (hy : y.Correlated delta p.len) : (x.write p p y).Correlated delta (p.off + p.len) := by
  intro i hi
  obtain ⟨hc, ha, hb⟩ := hsize
  dsimp only [SVoleVectors.write]
  simp only [List.getD_eq_getElem?_getD]
  by_cases hold : i < p.off
  · have hnot : ¬(p.off ≤ i ∧ i < p.off + p.len) := by omega
    rw [getElem?_overwrite_of_notMem hnot, getElem?_overwrite_of_notMem hnot,
      getElem?_overwrite_of_notMem hnot]
    have hcorr := h i hold
    simpa only [List.getD_eq_getElem?_getD] using hcorr
  · have hmem : p.off ≤ i ∧ i < p.off + p.len := by omega
    rw [getElem?_overwrite_of_mem (by omega) hmem, getElem?_overwrite_of_mem (by omega) hmem,
      getElem?_overwrite_of_mem (by omega) hmem]
    exact hy (i - p.off) (by omega)

/-- **Calls on the pieces of a tiling** correlate one piece after the other. -/
theorem SfVole.Correct.runPieces {V : SfVole} (hV : V.Correct) {lo n : ℕ} {pieces : List Piece}
    (h : Tiles lo pieces n) {x : SVoleVectors} (hsize : x.HasSize n)
    (hx : x.Correlated V.delta lo) (call : ℕ) :
    ∃ y, V.runPieces call pieces pieces x = .ok y ∧ y.Correlated V.delta n := by
  induction pieces generalizing lo x call with
  | nil =>
    obtain rfl : lo = n := h
    exact ⟨x, rfl, hx⟩
  | cons p pieces ih =>
    obtain ⟨rfl, htail⟩ := h
    obtain ⟨y, hy, -, hcorr⟩ := hV call p.len
    rw [SfVole.runPieces, hy]
    exact ih htail (hsize.write p y) (hx.write hsize htail.le hcorr) (call + 1)

namespace SVoleKernel

/-- The pieces have every index below `size` exactly once, and no other index. -/
def TileOnce (size : ℕ) (pieces : List Piece) : Prop :=
  ∀ i, (pieces.countP fun p => p.contains i) = if i < size then 1 else 0

/-- **Streaming.** For every size, every number of threads and every step size: the pieces of the
sender and of the receiver are the same, they have every index once, and the vectors are correlated
afterwards, exactly if the output fits into one step. -/
theorem evalStreaming_iff (size : ℕ) {threads stepSize : ℕ} (hthreads : 1 ≤ threads)
    (hstep : 0 < stepSize) :
    (∃ pieces, evalStreamingSend ⟨true, .sender⟩ size threads stepSize = .ok pieces ∧
      evalStreamingRecv ⟨true, .receiver⟩ size size threads stepSize = .ok pieces ∧
      TileOnce size pieces ∧
      ∀ V : SfVole, V.Correct → ∀ x : SVoleVectors, x.HasSize size →
        ∃ y, V.runPieces 0 pieces pieces x = .ok y ∧ y.Correlated V.delta size) ↔
    size ≤ stepSize := by
  constructor
  · rintro ⟨pieces, hsend, -, htile, -⟩
    by_contra hsize
    obtain ⟨pieces', hsend', hoff⟩ :=
      @exists_evalStreamingSend size threads stepSize hthreads hstep
    obtain rfl : pieces' = pieces := Except.ok.inj (hsend'.symm.trans hsend)
    -- with two steps or more, nobody has the first index
    have hsteps : 1 < stepNum size stepSize := (lt_stepNum_iff hstep).2 (by omega)
    have hpos : 0 < stepSize * (stepNum size stepSize - 1) := Nat.mul_pos hstep (by omega)
    have hnone : (pieces'.countP fun p => p.contains 0) = 0 := by
      refine List.countP_eq_zero.2 fun p hp => ?_
      have hle := hoff p hp
      simp only [Piece.contains, Bool.and_eq_true, decide_eq_true_eq]
      omega
    have hfirst := htile 0
    rw [hnone, if_pos (by omega)] at hfirst
    contradiction
  · intro hsize
    obtain ⟨pieces, hrecv, htiles⟩ :=
      @exists_evalStreamingRecv size threads stepSize hthreads hstep
    refine ⟨pieces, (evalStreamingSend_eq hstep hsize).trans hrecv, hrecv, fun i => ?_,
      fun V hV x hx => hV.runPieces htiles hx (fun i hi => absurd hi (by omega)) 0⟩
    rw [htiles.countP_contains]
    exact if_congr (by omega) rfl rfl

/-- Three entries in a step of four, for two threads. -/
theorem evalStreaming_three :
    (∃ pieces, evalStreamingSend ⟨true, .sender⟩ 3 2 4 = .ok pieces ∧
      evalStreamingRecv ⟨true, .receiver⟩ 3 3 2 4 = .ok pieces ∧ TileOnce 3 pieces ∧
      ∀ V : SfVole, V.Correct → ∀ x : SVoleVectors, x.HasSize 3 →
        ∃ y, V.runPieces 0 pieces pieces x = .ok y ∧ y.Correlated V.delta 3) ↔ 3 ≤ 4 :=
  evalStreaming_iff 3 (by decide) (by decide)

/-- **Two steps**: for three entries in steps of two, the sender fills the last entry twice. -/
theorem evalStreaming_twoSteps :
    evalStreamingSend ⟨true, .sender⟩ 3 1 2 = .ok [⟨2, 1⟩, ⟨2, 1⟩] ∧
      evalStreamingRecv ⟨true, .receiver⟩ 3 3 1 2 = .ok [⟨0, 2⟩, ⟨2, 1⟩] ∧
      ¬TileOnce 3 [⟨2, 1⟩, ⟨2, 1⟩] :=
  ⟨rfl, rfl, fun h => absurd (h 0) (by decide)⟩

end SVoleKernel

end Yacl.Crypto
