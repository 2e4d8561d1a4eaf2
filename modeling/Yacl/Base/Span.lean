import Mathlib.Tactic
import Yacl.Base.Exception
import Yacl.Lib.Loop

/-!
# Vectors and spans

`std::vector::resize`, and the loop that copies computed values into a span. A span is the list
of its entries, and is returned after it was written. The writes of `writeSpan` are checked like
those of `vecSet`; inside the span the result is `overwrite` (`writeSpan_eq`).
-/

open Loop

namespace Yacl

variable {α : Type}
variable {l : List α}

theorem isEmpty_eq_false (h : 1 ≤ l.length) : l.isEmpty = false := by
  cases l with
  | nil => exact absurd h (by simp)
  | cons a l => rfl

/-- `v.resize(n, a)`. -/
def vecResize (v : List α) (n : ℕ) (a : α) : List α := (List.range n).map fun i => v.getD i a

@[simp]
theorem length_vecResize (v : List α) (n : ℕ) (a : α) : (vecResize v n a).length = n := by
  simp [vecResize]

theorem getD_vecResize (v : List α) (n : ℕ) (a : α) (i : ℕ) :
    (vecResize v n a).getD i a = if i < n then v.getD i a else a := by
  rw [vecResize, List.getD_eq_getElem?_getD, List.getElem?_map]
  split
  · next h => rw [List.getElem?_range h]; rfl
  · next h => rw [List.getElem?_eq_none (by simpa using h)]; rfl

variable {v : List α} {n i : ℕ}

theorem getElem?_vecResize {a x : α} (hi : i < n) (hx : v[i]? = some x) :
    (vecResize v n a)[i]? = some x := by
  rw [vecResize, List.getElem?_map, List.getElem?_range hi, Option.map_some,
    List.getD_eq_getElem?_getD, hx]
  rfl

theorem vecResize_eq_take (h : n ≤ v.length) (a : α) : vecResize v n a = v.take n := by
  refine List.ext_getElem (by rw [length_vecResize, List.length_take, Nat.min_eq_left h]) ?_
  intro i hi _
  rw [length_vecResize] at hi
  simp [vecResize, List.getElem?_eq_getElem (lt_of_lt_of_le hi h)]

/-- The list with the entries from `off` on replaced by `n` values of `f`. -/
def overwrite (l : List α) (off n : ℕ) (f : ℕ → α) : List α :=
  l.mapIdx fun i a => if off ≤ i ∧ i < off + n then f (i - off) else a

@[simp]
theorem length_overwrite (l : List α) (off n : ℕ) (f : ℕ → α) :
    (overwrite l off n f).length = l.length := by
  simp [overwrite]

theorem getElem?_overwrite (l : List α) (off n : ℕ) (f : ℕ → α) (i : ℕ) :
    (overwrite l off n f)[i]? =
      l[i]?.map fun a => if off ≤ i ∧ i < off + n then f (i - off) else a := by
  simp [overwrite]

variable {off : ℕ} {f : ℕ → α}

theorem getElem?_overwrite_of_mem (hl : i < l.length) (h : off ≤ i ∧ i < off + n) :
    (overwrite l off n f)[i]? = some (f (i - off)) := by
  rw [getElem?_overwrite, List.getElem?_eq_getElem hl, Option.map_some, if_pos h]

theorem getElem?_overwrite_of_notMem (h : ¬(off ≤ i ∧ i < off + n)) :
    (overwrite l off n f)[i]? = l[i]? := by
  rw [getElem?_overwrite]
  simp [h]

theorem getD_overwrite (hl : n ≤ l.length) (hi : i < n) (a : α) :
    (overwrite l 0 n f).getD i a = f i := by
  rw [List.getD_eq_getElem?_getD, getElem?_overwrite_of_mem (by omega) (by omega)]
  rfl

theorem overwrite_congr {g : ℕ → α} (h : ∀ i < n, f i = g i) :
    overwrite l off n f = overwrite l off n g := by
  refine List.ext_getElem? fun i => ?_
  rw [getElem?_overwrite, getElem?_overwrite]
  congr 1
  funext a
  split
  · exact h _ (by omega)
  · rfl

@[simp]
theorem overwrite_zero (l : List α) (off : ℕ) (f : ℕ → α) : overwrite l off 0 f = l :=
  List.ext_getElem? fun _ => getElem?_overwrite_of_notMem (by omega)

theorem overwrite_one (h : 1 ≤ l.length) (f : ℕ → α) : overwrite l 0 1 f = l.set 0 (f 0) := by
  refine List.ext_getElem? fun i => ?_
  rw [getElem?_overwrite, List.getElem?_set]
  rcases Nat.eq_zero_or_pos i with rfl | hi
  · rw [if_pos rfl, if_pos (by omega), List.getElem?_eq_getElem (by omega)]
    rfl
  · rw [if_neg (by omega)]
    simp [show i ≠ 0 by omega]

theorem overwrite_self (n : ℕ) (a : α) : overwrite l 0 n (fun i => l.getD i a) = l := by
  refine List.ext_getElem? fun i => ?_
  rw [getElem?_overwrite]
  by_cases hi : i < l.length
  · simp [hi]
  · rw [List.getElem?_eq_none (by omega)]
    rfl

theorem overwrite_overwrite {m : ℕ} (h : m ≤ n) (f g : ℕ → α) :
    overwrite (overwrite l 0 m f) 0 n g = overwrite l 0 n g := by
  refine List.ext_getElem? fun i => ?_
  rw [getElem?_overwrite, getElem?_overwrite, getElem?_overwrite, Option.map_map]
  congr 1
  funext a
  rw [Function.comp_apply]
  split
  · rfl
  · rw [if_neg (by omega)]

theorem overwrite_append (l : List α) (m n : ℕ) (f g : ℕ → α) :
    overwrite (overwrite l 0 m f) m n g =
      overwrite l 0 (m + n) fun i => if i < m then f i else g (i - m) := by
  refine List.ext_getElem? fun i => ?_
  rw [getElem?_overwrite, getElem?_overwrite, getElem?_overwrite, Option.map_map]
  congr 1
  funext a
  rw [Function.comp_apply, Nat.sub_zero]
  by_cases hm : i < m
  · rw [if_neg (by omega), if_pos (by omega), if_pos (by omega), if_pos hm]
  by_cases hn : i < m + n
  · rw [if_pos (by omega), if_pos (by omega), if_neg hm]
  · rw [if_neg (by omega), if_neg (by omega), if_neg (by omega)]

theorem overwrite_set {p : ℕ} (hp : p < n) (f : ℕ → α) (a : α) :
    (overwrite l 0 n f).set p a = overwrite l 0 n (Function.update f p a) := by
  refine List.ext_getElem? fun i => ?_
  rw [List.getElem?_set, getElem?_overwrite, getElem?_overwrite, length_overwrite]
  by_cases hip : p = i
  · subst hip
    rw [if_pos rfl]
    split
    · next hl => rw [List.getElem?_eq_getElem hl, Option.map_some, if_pos (by omega)]; simp
    · next hl => rw [List.getElem?_eq_none (by omega)]; rfl
  · rw [if_neg hip]
    congr 1
    funext b
    split
    · rw [Function.update_of_ne (by omega)]
    · rfl

/-- The list with `f` applied to the entries before `n`. -/
def mapBefore (f : ℕ → α → α) (n : ℕ) (l : List α) : List α :=
  l.mapIdx fun i a => if i < n then f i a else a

theorem getElem?_mapBefore (f : ℕ → α → α) (n : ℕ) (l : List α) (i : ℕ) :
    (mapBefore f n l)[i]? = l[i]?.map fun a => if i < n then f i a else a :=
  List.getElem?_mapIdx

@[simp]
theorem length_mapBefore (f : ℕ → α → α) (n : ℕ) (l : List α) :
    (mapBefore f n l).length = l.length := by
  rw [mapBefore, List.length_mapIdx]

theorem mapBefore_zero (f : ℕ → α → α) (l : List α) : mapBefore f 0 l = l := by
  refine List.ext_getElem? fun i => ?_
  rw [getElem?_mapBefore]
  simp

theorem mapBefore_of_le (f : ℕ → α → α) (h : l.length ≤ n) : mapBefore f n l = l.mapIdx f := by
  refine List.ext_getElem? fun i => ?_
  rw [getElem?_mapBefore, List.getElem?_mapIdx]
  by_cases hi : i < l.length
  · simp only [if_pos (hi.trans_le h)]
  · rw [List.getElem?_eq_none (by omega)]
    rfl

theorem mapBefore_eq_append (f : ℕ → α → α) (n : ℕ) (l : List α) :
    mapBefore f n l = (l.take n).mapIdx f ++ l.drop n := by
  refine List.ext_getElem? fun i => ?_
  rw [getElem?_mapBefore, List.getElem?_append, List.length_mapIdx, List.length_take,
    List.getElem?_mapIdx, List.getElem?_drop]
  rcases Nat.lt_or_ge i l.length with hi | hi
  · by_cases hn : i < n
    · simp [hi, hn]
    · rw [show n + (i - min n l.length) = i by omega]
      simp [hn]
  · rw [if_neg (by omega), List.getElem?_eq_none hi, List.getElem?_eq_none (by omega)]
    rfl

theorem vecGet_mapBefore (f : ℕ → α → α) (h : n < l.length) :
    vecGet (mapBefore f n l) n = .ok l[n] := by
  refine vecGet_of_getElem? ?_
  rw [getElem?_mapBefore, List.getElem?_eq_getElem h, Option.map_some, if_neg (by omega)]

theorem vecSet_mapBefore (f : ℕ → α → α) (h : n < l.length) :
    vecSet (mapBefore f n l) n (f n l[n]) = .ok (mapBefore f (n + 1) l) := by
  rw [vecSet_of_lt (by rwa [length_mapBefore])]
  refine congrArg Except.ok (List.ext_getElem? fun i => ?_)
  rw [List.getElem?_set, getElem?_mapBefore, getElem?_mapBefore, length_mapBefore, if_pos h]
  by_cases hi : n = i
  · subst hi
    rw [if_pos rfl, List.getElem?_eq_getElem h, Option.map_some, if_pos (by omega)]
  · rw [if_neg hi]
    simp only [show i < n ↔ i < n + 1 by omega]

/-- The list with a function applied to `n` entries from `off` on. -/
def mapPiece (f : α → α) (off n : ℕ) (l : List α) : List α :=
  l.mapIdx fun i a => if off ≤ i ∧ i < off + n then f a else a

theorem mapPiece_zero (f : α → α) (l : List α) : mapPiece f 0 0 l = l := by
  refine List.ext_getElem? fun i => ?_
  rw [mapPiece]
  simp

theorem mapPiece_length (f : α → α) (l : List α) : mapPiece f 0 l.length l = l.map f := by
  refine List.ext_getElem? fun i => ?_
  rw [mapPiece, List.getElem?_mapIdx, List.getElem?_map]
  by_cases hi : i < l.length
  · rw [List.getElem?_eq_getElem hi, Option.map_some, Option.map_some, if_pos (by omega)]
  · rw [List.getElem?_eq_none (by omega)]
    rfl

theorem mapPiece_append (f : α → α) (m n : ℕ) (l : List α) :
    mapPiece f m n (mapPiece f 0 m l) = mapPiece f 0 (m + n) l := by
  refine List.ext_getElem? fun i => ?_
  rw [mapPiece, mapPiece, mapPiece, List.getElem?_mapIdx, List.getElem?_mapIdx,
    List.getElem?_mapIdx, Option.map_map]
  congr 1
  funext a
  rw [Function.comp_apply]
  by_cases hm : i < m
  · rw [if_neg (by omega), if_pos (by omega), if_pos (by omega)]
  by_cases hn : i < m + n
  · rw [if_pos (by omega), if_neg (by omega), if_pos (by omega)]
  · rw [if_neg (by omega), if_neg (by omega), if_neg (by omega)]

/-- The list with computed values put over a piece of it, if they are values of `f`. -/
theorem mapIdx_getD_eq_mapPiece {f : α → α} {g : α → α → α} {h : α → α} (hf : ∀ a, g (h a) a = f a)
    (off n : ℕ) (l : List α) (d : α) :
    (l.mapIdx fun i a => if off ≤ i ∧ i < off + n then
      g ((((l.drop off).take n).map h).getD (i - off) d) a else a) = mapPiece f off n l := by
  refine List.ext_getElem? fun i => ?_
  rw [mapPiece, List.getElem?_mapIdx, List.getElem?_mapIdx]
  by_cases hi : i < l.length
  · rw [List.getElem?_eq_getElem hi, Option.map_some, Option.map_some]
    split
    · rw [List.getD_eq_getElem?_getD, List.getElem?_map, List.getElem?_take_of_lt (by omega),
        List.getElem?_drop, show off + (i - off) = i by omega, List.getElem?_eq_getElem hi,
        Option.map_some, Option.getD_some, hf]
    · rfl
  · rw [List.getElem?_eq_none (by omega)]
    rfl

/-- `v.subspan(pos, len)`, which is cut off at the end of the span. -/
def subspan (v : List α) (pos len : ℕ) : Except Exception (List α) :=
  if pos ≤ v.length then pure ((v.drop pos).take len) else throw .outOfRange

theorem subspan_eq {pos len : ℕ} (h : pos + len ≤ v.length) :
    ∃ s, subspan v pos len = .ok s ∧ s.length = len :=
  ⟨(v.drop pos).take len, if_pos (by omega), by rw [List.length_take, List.length_drop]; omega⟩

/-- The entries of `v.subspan(pos, len)`, read as an array. -/
def readSpan (v : List α) (pos len : ℕ) (a : α) : Except Exception (ℕ → α) :=
  if pos + len ≤ v.length then pure fun i => v.getD (pos + i) a else throw .undefinedBehaviour

theorem readSpan_overwrite_at (h : off + n ≤ l.length) (f : ℕ → α) (a : α) :
    ∃ g, readSpan (overwrite l off n f) off n a = .ok g ∧ ∀ i < n, g i = f i := by
  refine ⟨_, if_pos (by rw [length_overwrite]; omega), fun i hi => ?_⟩
  rw [List.getD_eq_getElem?_getD, getElem?_overwrite_of_mem (by omega) (by omega)]
  simp

theorem readSpan_overwrite (h : n ≤ l.length) (f : ℕ → α) (a : α) :
    ∃ g, readSpan (overwrite l 0 n f) 0 n a = .ok g ∧ ∀ i < n, g i = f i :=
  readSpan_overwrite_at (by omega) f a

/-- The loop `for (j = 0; j < n; ++j) out[off + j] = f(j)`. -/
def writeSpan (out : List α) (off n : ℕ) (f : ℕ → α) : Except Exception (List α) :=
  forLoop n (fun j out => vecSet out (off + j) (f j)) out

variable {out : List α}

/-- **The copying loop** stays in the span if its last write does. -/
theorem writeSpan_eq (h : off + n ≤ out.length) (f : ℕ → α) :
    writeSpan out off n f = .ok (overwrite out off n f) := by
  have hstep : ∀ j < n, vecSet (overwrite out off j f) (off + j) (f j) =
      .ok (overwrite out off (j + 1) f) := by
    intro j hj
    rw [vecSet_of_lt (by rw [length_overwrite]; omega)]
    congr 1
    refine List.ext_getElem? fun i => ?_
    rw [List.getElem?_set, getElem?_overwrite, getElem?_overwrite, length_overwrite]
    by_cases hij : off + j = i
    · subst hij
      rw [if_pos rfl, if_pos (by omega), List.getElem?_eq_getElem (by omega), Option.map_some,
        if_pos (by omega), Nat.add_sub_cancel_left]
    · rw [if_neg hij]
      congr 1
      funext a
      exact if_congr (by omega) rfl rfl
  calc writeSpan out off n f
      = forLoop n (fun j out => vecSet out (off + j) (f j)) (overwrite out off 0 f) := by
        rw [overwrite_zero, writeSpan]
    _ = .ok (overwrite out off n f) := forLoop_eq_ok (fun j => overwrite out off j f) hstep

/-- The loop `for (i = 0; i < n; ++i) out[i] = g(i)`, where computing a value may throw. -/
def fillSpan (out : List α) (n : ℕ) (g : ℕ → Except Exception α) : Except Exception (List α) :=
  forLoop n (fun i out => do vecSet out i (← g i)) out

theorem fillSpan_eq (h : n ≤ out.length) {g : ℕ → Except Exception α}
    (hg : ∀ i < n, g i = .ok (f i)) : fillSpan out n g = .ok (overwrite out 0 n f) := by
  rw [← writeSpan_eq (by omega)]
  refine forLoop_congr (fun i hi s => ?_) out
  rw [hg i hi, ok_bind, Nat.zero_add]

theorem writeSpan_all (h : out.length = n) (f : ℕ → α) :
    writeSpan out 0 n f = .ok ((List.range n).map f) := by
  rw [writeSpan_eq (by omega)]
  refine congrArg Except.ok (List.ext_getElem? fun i => ?_)
  rw [getElem?_overwrite, List.getElem?_map]
  by_cases hi : i < n
  · rw [List.getElem?_eq_getElem (by omega), List.getElem?_range hi, Option.map_some,
      if_pos (by omega), Nat.sub_zero, Option.map_some]
  · rw [List.getElem?_eq_none (by omega), List.getElem?_eq_none (by simpa using hi)]
    rfl

theorem vecResize_map_range {m : ℕ} (h : n ≤ m) (f : ℕ → α) (a : α) :
    vecResize ((List.range m).map f) n a = (List.range n).map f := by
  refine List.map_congr_left fun i hi => ?_
  rw [List.mem_range] at hi
  simp [show i < m by omega]

theorem getD_map_range (h : i < n) (f : ℕ → α) (a : α) : ((List.range n).map f).getD i a = f i := by
  simp [h]

end Yacl
