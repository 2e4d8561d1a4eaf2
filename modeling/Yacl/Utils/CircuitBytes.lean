import Mathlib.Algebra.Order.BigOperators.Group.List
import Yacl.Utils.CircuitExecutor

/-!
# Circuits with byte strings

The variants of `SetupInputs` and `Finalize` of `PlainExecutor` (`yacl/utils/circuit_executor.cc`)
for byte strings. `Finalize()` cuts whole bytes from the last wire on. If the number of output bits
is not a multiple of eight, then the last byte that it cuts has wires in front of the outputs, or
wires that are not there.
-/

open Bits Bytes Loop StraightLine

namespace Yacl

namespace Io.BFCircuit

/-- The numbers of a circuit have the types of the source, and there are as many widths of outputs
as it says. -/
structure Typed (C : BFCircuit) : Prop where
  nw_lt : C.nw < 2 ^ 32
  nov_lt : C.nov < 2 ^ 32
  nov_eq : C.now.length = C.nov
  now_lt : ∀ n ∈ C.now, n < 2 ^ 32

theorem Typed.sum_lt {C : BFCircuit} (h : C.Typed) : C.now.sum + 7 < 2 ^ 64 := by
  have hsum := List.sum_le_card_nsmul C.now (2 ^ 32 - 1) fun n hn =>
    Nat.le_pred_of_lt (h.now_lt n hn)
  have hmul := Nat.mul_le_mul_right (2 ^ 32 - 1) (Nat.le_pred_of_lt h.nov_lt)
  rw [h.nov_eq] at hsum
  have hle := hsum.trans hmul
  norm_num at hle ⊢
  omega

end Io.BFCircuit

namespace Utils

open Io

namespace PlainExecutor

/-- The loop that counts the output bits. -/
def totalOutBitnum (C : BFCircuit) : Except Exception ℕ :=
  forLoop C.nov (fun i total => do pure ((total + (← vecGet C.now i)) % 2 ^ 64)) 0

/-- A byte of `Finalize()`. The state has `out` and `index`. -/
def finalizeByte (wires : List Bool) (outSize i : ℕ) (s : List Byte × ℕ) :
    Except Exception (List Byte × ℕ) := do
  let result ← resultBits wires s.2 8
  let block ← firstBlock 8 result
  let out ← vecSet s.1 (outSize - i - 1) block
  pure (out, sizeSub s.2 8)

/-- `Finalize()`. -/
def finalizeBytes (e : PlainExecutor) : Except Exception (List Byte) := do
  let total ← totalOutBitnum e.circ
  let outSize := (total + 7) % 2 ^ 64 / 8
  let s ← forLoop outSize (finalizeByte e.wires outSize) (List.replicate outSize 0, e.wires.length)
  pure s.1.reverse

/-- **The bytes are made of the outputs**: they depend on the output wires only, and every output
wire has a place of its own in them. -/
structure ExposesOutputs (C : BFCircuit) : Prop where
  determined : ∀ wires wires' : List Bool, wires.length = C.nw → wires'.length = C.nw →
    (∀ k < C.nw, C.nw ≤ C.now.sum + k → wires.getD k false = wires'.getD k false) →
      finalizeBytes ⟨wires, C⟩ = finalizeBytes ⟨wires', C⟩
  placed : ∃ place : ℕ → ℕ × ℕ, Set.InjOn place {k | k < C.now.sum} ∧
    ∀ wires : List Bool, wires.length = C.nw → ∃ out, finalizeBytes ⟨wires, C⟩ = .ok out ∧
      ∀ k < C.now.sum, (out.getD (place k).1 0).getLsbD (place k).2 =
        wires.getD (C.nw - C.now.sum + k) false

/-- The byte that ends before the last `i` ones. -/
def byteAt (wires : List Bool) (i : ℕ) : Byte :=
  bitsOf 8 fun j => wires.getD (wires.length - 8 * (i + 1) + j) false

variable {C : BFCircuit}

theorem totalOutBitnum_ok (hC : C.Typed) : totalOutBitnum C = .ok C.now.sum := by
  have hlt := hC.sum_lt
  rw [totalOutBitnum, ← hC.nov_eq]
  conv_rhs => rw [← C.now.take_length]
  refine forLoop_eq_ok (fun i => (C.now.take i).sum) fun i hi => ?_
  have hget := List.getElem?_eq_getElem hi
  have htake : (C.now.take (i + 1)).sum = (C.now.take i).sum + C.now[i] := by
    rw [List.take_add_one, hget, Option.toList_some, List.sum_append, List.sum_singleton]
  have hsum := congrArg List.sum (C.now.take_append_drop (i + 1))
  rw [List.sum_append] at hsum
  rw [vecGet_of_getElem? hget, ok_bind, ← htake, Nat.mod_eq_of_lt (by omega)]
  rfl

variable {wires : List Bool} {n : ℕ}

/-- **`Finalize()` cuts bytes** as long as there are wires. -/
theorem forLoop_finalizeByte (hn : 8 * n ≤ wires.length) (hlt : wires.length < 2 ^ 32) :
    forLoop n (finalizeByte wires n) (List.replicate n 0, wires.length) =
      .ok (((List.range n).map (byteAt wires)).reverse, wires.length - 8 * n) := by
  set acc : ℕ → List Byte × ℕ := fun i =>
    (List.replicate (n - i) 0 ++ ((List.range i).map (byteAt wires)).reverse, wires.length - 8 * i)
  have hloop : forLoop n (finalizeByte wires n) (acc 0) = .ok (acc n) := by
    refine forLoop_eq_ok acc fun i hi => ?_
    have hblock : bitsOf 8 (fun j => ((List.range 8).map fun j =>
        wires.getD (wires.length - 8 * i - 8 + j) false).getD j false) = byteAt wires i := by
      refine bitsOf_congr fun j hj => ?_
      rw [List.getD_eq_getElem?_getD, List.getElem?_map, List.getElem?_range hj]
      rfl
    have hset : (List.replicate (n - i) 0 ++ ((List.range i).map (byteAt wires)).reverse).set
        (n - i - 1) (byteAt wires i) =
          List.replicate (n - (i + 1)) 0 ++ ((List.range (i + 1)).map (byteAt wires)).reverse := by
      obtain ⟨k, hk⟩ := Nat.exists_eq_add_of_lt hi
      rw [show n - i = k + 1 by omega, show n - (i + 1) = k by omega, List.replicate_succ',
        List.range_succ]
      simp
    have hlen : n - i - 1 < (List.replicate (n - i) (0 : Byte) ++
        ((List.range i).map (byteAt wires)).reverse).length := by
      rw [List.length_append, List.length_replicate]
      omega
    rw [finalizeByte]
    dsimp only [acc]
    rw [resultBits_ok (by omega) (Nat.sub_le _ _) (by omega), ok_bind, firstBlock,
      definedIf_bind (by simp), hblock, pure_bind, vecSet_of_lt hlen, hset,
      sizeSub_of_le (by omega) (by omega)]
    rfl
  simpa [acc] using hloop

/-- **No wires are missing** if it returns. -/
theorem le_of_finalizeByte {s : List Byte × ℕ} (hlt : wires.length < 2 ^ 32)
    (h : forLoop n (finalizeByte wires n) (List.replicate n 0, wires.length) = .ok s) :
    8 * n ≤ wires.length := by
  refine (forLoop_of_ok h (fun i s => 8 * i ≤ wires.length ∧ s.2 = wires.length - 8 * i)
    ⟨Nat.zero_le _, rfl⟩ ?_).1
  rintro i hi ⟨out, index⟩ s' ⟨hle, hindex⟩ hbyte
  obtain ⟨result, hresult, hbyte⟩ := of_bind_eq_ok hbyte
  obtain ⟨block, -, hbyte⟩ := of_bind_eq_ok hbyte
  obtain ⟨out', -, hbyte⟩ := of_bind_eq_ok hbyte
  obtain rfl := Except.ok.inj hbyte
  subst hindex
  have hfirst : 0 < 8 → 8 ≤ wires.length - 8 * i :=
    forLoop_of_ok hresult (fun j _ => 0 < j → 8 ≤ wires.length - 8 * i)
      (fun h => absurd h (lt_irrefl 0)) fun j hj bits bits' hinv hbit _ => by
      rcases Nat.eq_zero_or_pos j with rfl | hpos
      · -- the first bit of the byte lies on a wire
        obtain ⟨bit, hget, -⟩ := of_bind_eq_ok hbit
        have hwire := (List.getElem?_eq_some_iff.mp (of_vecGet hget)).1
        rw [Nat.add_zero, sizeSub] at hwire
        by_contra hlt'
        omega
      · exact hinv hpos
  have hle' := hfirst (by decide)
  exact ⟨by omega, by rw [sizeSub_of_le hle' (by omega)]; omega⟩

/-- **`Finalize()`** returns exactly if there are wires for all bytes. -/
theorem finalizeBytes_eq (hC : C.Typed) (hwires : wires.length = C.nw)
    (hle : 8 * ((C.now.sum + 7) / 8) ≤ C.nw) :
    finalizeBytes ⟨wires, C⟩ = .ok ((List.range ((C.now.sum + 7) / 8)).map (byteAt wires)) := by
  rw [finalizeBytes, totalOutBitnum_ok hC, ok_bind]
  dsimp only
  rw [Nat.mod_eq_of_lt hC.sum_lt,
    forLoop_finalizeByte (hwires.symm ▸ hle) (hwires.symm ▸ hC.nw_lt), ok_bind,
    List.reverse_reverse]
  rfl

theorem le_of_finalizeBytes (hC : C.Typed) {out : List Byte} (hwires : wires.length = C.nw)
    (h : finalizeBytes ⟨wires, C⟩ = .ok out) : 8 * ((C.now.sum + 7) / 8) ≤ C.nw := by
  rw [finalizeBytes, totalOutBitnum_ok hC, ok_bind] at h
  rw [Nat.mod_eq_of_lt hC.sum_lt] at h
  obtain ⟨s, hs, -⟩ := of_bind_eq_ok h
  exact hwires ▸ le_of_finalizeByte (hwires.symm ▸ hC.nw_lt) hs

/-- **A part of a byte** that is left over shows a wire in front of the outputs. -/
theorem dvd_of_exposesOutputs (hC : C.Typed) (h : ExposesOutputs C) :
    8 ∣ C.now.sum ∧ C.now.sum ≤ C.nw := by
  obtain ⟨hdet, place, -, hplaced⟩ := h
  obtain ⟨out, hout, -⟩ := hplaced (List.replicate C.nw false) List.length_replicate
  have hle := le_of_finalizeBytes hC List.length_replicate hout
  refine ⟨?_, by omega⟩
  by_contra hdvd
  -- the first wire of the last byte lies in front of the outputs
  have hset : ((List.replicate C.nw false).set (C.nw - 8 * ((C.now.sum + 7) / 8)) true).length =
      C.nw := by rw [List.length_set, List.length_replicate]
  have heq := hdet (List.replicate C.nw false) _ List.length_replicate hset fun k hk hlast => by
    rw [List.getD_eq_getElem?_getD, List.getD_eq_getElem?_getD, List.getElem?_set,
      if_neg (by omega)]
  rw [finalizeBytes_eq hC List.length_replicate hle, finalizeBytes_eq hC hset hle] at heq
  have hbyte := List.map_inj_left.mp (Except.ok.inj heq) ((C.now.sum + 7) / 8 - 1)
    (List.mem_range.mpr (by omega))
  have hbit := congrArg (BitVec.getLsbD · 0) hbyte
  simp only [byteAt, getLsbD_bitsOf_of_lt (show 0 < 8 by decide),
    List.getD_eq_getElem?_getD] at hbit
  rw [List.getElem?_set, if_pos (by omega), if_pos (by rw [List.length_replicate]; omega),
    List.getElem?_replicate] at hbit
  split at hbit <;> cases hbit

/-- **The bytes of `Finalize()` are made of the outputs** exactly if their number is a multiple of
eight, and not larger than that of all wires. -/
theorem exposesOutputs_iff (hC : C.Typed) :
    ExposesOutputs C ↔ 8 ∣ C.now.sum ∧ C.now.sum ≤ C.nw := by
  constructor
  · exact dvd_of_exposesOutputs hC
  · rintro ⟨⟨m, hm⟩, hle⟩
    have hsize : (C.now.sum + 7) / 8 = m := by omega
    refine ⟨fun wires wires' hwires hwires' h => ?_,
      fun k => (m - 1 - k / 8, k % 8), fun k hk k' hk' h => ?_, fun wires hwires => ?_⟩
    · rw [finalizeBytes_eq hC hwires (by omega), finalizeBytes_eq hC hwires' (by omega)]
      refine congrArg Except.ok (List.map_congr_left fun i hi => bitsOf_congr fun j hj => ?_)
      have hi' := List.mem_range.mp hi
      rw [hwires, hwires']
      exact h _ (by omega) (by omega)
    · rw [Prod.mk.injEq] at h
      simp only [Set.mem_ofPred_eq] at hk hk'
      omega
    · refine ⟨_, finalizeBytes_eq hC hwires (by omega), fun k hk => ?_⟩
      have hbyte : m - 1 - k / 8 < m := by omega
      rw [List.getD_eq_getElem?_getD, List.getElem?_map, hsize, List.getElem?_range hbyte,
        Option.map_some, Option.getD_some, byteAt, getLsbD_bitsOf_of_lt (Nat.mod_lt k (by decide))]
      congr 1
      omega

/-- A circuit without gates. -/
def wireCircuit (nw : ℕ) (now : List ℕ) : BFCircuit := ⟨nw, 1, [nw], now.length, now, []⟩

theorem typed_wireCircuit {nw : ℕ} (hnw : nw < 2 ^ 32) (hn : n < 2 ^ 32) :
    (wireCircuit nw [n]).Typed :=
  ⟨hnw, Nat.one_lt_two_pow (by decide), rfl, by simpa [wireCircuit] using hn⟩

/-- Eight outputs. -/
theorem exposesOutputs_eight :
    ExposesOutputs (wireCircuit 16 [8]) ↔
      8 ∣ (wireCircuit 16 [8]).now.sum ∧ (wireCircuit 16 [8]).now.sum ≤ (wireCircuit 16 [8]).nw :=
  exposesOutputs_iff (typed_wireCircuit (by decide) (by decide))

/-- **A single output**: the byte has seven other wires. -/
theorem not_exposesOutputs_one : ¬ ExposesOutputs (wireCircuit 16 [1]) := fun h =>
  absurd (dvd_of_exposesOutputs (typed_wireCircuit (by decide) (by decide)) h).1 (by decide)

end PlainExecutor

end Utils

end Yacl
