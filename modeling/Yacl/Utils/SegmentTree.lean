import Mathlib.Data.List.TakeWhile
import Mathlib.Tactic

/-!
# Sets of numbers as segments

The model of `yacl/utils/segment_tree.h` for `size_t`. A set of numbers is a map of disjoint half
open segments that do not touch, ordered by their first numbers. `Insert` looks for the last
segment that starts at or before the number, extends it or starts a new one, and merges what then
touches.

`Represents t s` says that the tree holds the finite set `s`: the segments are separated and cover
it, and the counter is its cardinality. `Insert` adds a number and tells whether it is new
(`insert_eq`), `Contains` is membership (`contains_eq`), and there is a single segment with both
ends of an interval exactly if the tree holds the interval (`covers_Icc_iff`). Separated segments
are a **canonical form** (`Separated.eq_of_covers`): whatever the calls were, the segments are
determined by the set. Numbers are such that the next one is a `size_t` too.
-/

namespace Yacl.Utils

/-- A segment `[first, second)`. -/
abbrev Segment := ℕ × ℕ

/-- `x + 1` for a `size_t`. -/
def sizeSucc (x : ℕ) : ℕ := (x + 1) % 2 ^ 64

/-- `SegmentTree<size_t>`: a set of numbers as disjoint segments that do not touch, and its size. -/
structure SegmentTree where
  /-- `segments_`, in the order of the keys. -/
  segments : List Segment
  /-- `count_`. -/
  count : ℕ
deriving Repr, DecidableEq

namespace SegmentTree

/-- The default constructor. -/
def empty : SegmentTree := ⟨[], 0⟩

/-- The segments with keys up to `item`, the last one first. The first of them, if there is one, is
`std::prev(segments_.upper_bound(item))`. -/
def lower (t : SegmentTree) (item : ℕ) : List Segment :=
  (t.segments.takeWhile (·.1 ≤ item)).reverse

/-- The segments from `segments_.upper_bound(item)` on. -/
def upper (t : SegmentTree) (item : ℕ) : List Segment := t.segments.dropWhile (·.1 ≤ item)

/-- The segment that `Insert` extends or creates, and those before it. A key that is in the map
already is not inserted again. -/
def place (item : ℕ) : List Segment → Option (Segment × List Segment)
  | [] => some ((item, sizeSucc item), [])
  | s :: below =>
    if item > s.2 then
      if s.1 = item then some (s, below) else some ((item, sizeSucc item), s :: below)
    else if item = s.2 then some ((s.1, sizeSucc item), below)
    else none

/-- The merge with the segment before. -/
def mergePrev (current : Segment) : List Segment → Segment × List Segment
  | [] => (current, [])
  | prev :: below =>
    if prev.2 = current.1 then ((prev.1, current.2), below) else (current, prev :: below)

/-- The merge with the segment after. -/
def mergeNext (current : Segment) : List Segment → Segment × List Segment
  | [] => (current, [])
  | next :: above =>
    if next.1 = current.2 then ((current.1, next.2), above) else (current, next :: above)

/-- `Insert`. -/
def insert (t : SegmentTree) (item : ℕ) : Bool × SegmentTree :=
  if t.segments.isEmpty then (true, ⟨[(item, sizeSucc item)], sizeSucc t.count⟩)
  else
    match place item (t.lower item) with
    | none => (false, t)
    | some (current, below) =>
      let (current, below) := mergePrev current below
      let (current, above) := mergeNext current (t.upper item)
      (true, ⟨below.reverse ++ current :: above, sizeSucc t.count⟩)

/-- `Contains`. -/
def contains (t : SegmentTree) (item : ℕ) : Bool :=
  match t.lower item with
  | [] => false
  | s :: _ => item < s.2

/-- `SegmentsCount`. -/
def segmentsCount (t : SegmentTree) : ℕ := t.segments.length

/-- `GetSegments`. -/
def getSegments (t : SegmentTree) : List Segment := t.segments

/-- `Insert` for the numbers of a list in turn, with what the calls return. -/
def insertAll (t : SegmentTree) : List ℕ → List Bool × SegmentTree
  | [] => ([], t)
  | item :: items =>
    let rest := (t.insert item).2.insertAll items
    ((t.insert item).1 :: rest.1, rest.2)

/-! ### Separated segments -/

/-- The numbers of a list of segments. -/
def Covers (l : List Segment) (x : ℕ) : Prop := ∃ s ∈ l, s.1 ≤ x ∧ x < s.2

/-- Segments in order that are not empty and do not touch. -/
structure Separated (l : List Segment) : Prop where
  pairwise : l.Pairwise fun s s' => s.2 < s'.1
  nonempty : ∀ s ∈ l, s.1 < s.2

@[simp]
theorem covers_nil (x : ℕ) : ¬Covers [] x := by simp [Covers]

variable {l : List Segment} {x : ℕ}

@[simp]
theorem covers_cons {s : Segment} : Covers (s :: l) x ↔ (s.1 ≤ x ∧ x < s.2) ∨ Covers l x := by
  simp [Covers]

variable {l' : List Segment}

@[simp]
theorem covers_append : Covers (l ++ l') x ↔ Covers l x ∨ Covers l' x := by
  simp only [Covers, List.mem_append, or_and_right, exists_or]

@[simp]
theorem covers_reverse : Covers l.reverse x ↔ Covers l x := by
  simp [Covers]

variable {a : Segment}

theorem Separated.tail (h : Separated (a :: l)) : Separated l :=
  ⟨h.pairwise.of_cons, fun s hs => h.nonempty s (List.mem_cons_of_mem a hs)⟩

/-- **A tree that holds a set.** -/
structure Represents (t : SegmentTree) (s : Finset ℕ) : Prop where
  separated : Separated t.segments
  covers_iff : ∀ x, Covers t.segments x ↔ x ∈ s
  count_eq : t.count = s.card

theorem empty_represents : empty.Represents ∅ where
  separated := ⟨.nil, by simp [empty]⟩
  covers_iff x := by simp [empty]
  count_eq := rfl

/-! ### The position of a number -/

/-- The segments on both sides of a number: those below it start at or before it, and end before
the next one starts. -/
structure Split (item : ℕ) (below above : List Segment) : Prop where
  below_pairwise : below.Pairwise fun s s' => s'.2 < s.1
  below_nonempty : ∀ s ∈ below, s.1 < s.2
  above_separated : Separated above
  below_le : ∀ s ∈ below, s.1 ≤ item
  lt_above : ∀ s ∈ above, item < s.1
  apart : ∀ s ∈ below, ∀ s' ∈ above, s.2 < s'.1

theorem lower_reverse_append_upper (t : SegmentTree) (item : ℕ) :
    (t.lower item).reverse ++ t.upper item = t.segments := by
  rw [lower, upper, List.reverse_reverse, List.takeWhile_append_dropWhile]

variable {item : ℕ}

theorem Separated.lt_of_mem_dropWhile (h : Separated l) :
    ∀ s ∈ l.dropWhile (·.1 ≤ item), item < s.1 := by
  induction l with
  | nil => simp
  | cons a l ih =>
    intro s hs
    rw [List.dropWhile_cons] at hs
    split at hs
    · exact ih h.tail s hs
    · next hlt =>
      have ha : item < a.1 := by simpa using hlt
      rcases List.mem_cons.mp hs with rfl | hs
      · exact ha
      · have h1 := (List.pairwise_cons.mp h.pairwise).1 s hs
        have h2 := h.nonempty a List.mem_cons_self
        omega

variable {t : SegmentTree}

theorem Separated.split (h : Separated t.segments) (item : ℕ) :
    Split item (t.lower item) (t.upper item) := by
  have hpair := h.pairwise
  have hne := h.nonempty
  rw [← lower_reverse_append_upper t item] at hpair hne
  obtain ⟨hlow, hup, hcross⟩ := List.pairwise_append.mp hpair
  refine ⟨List.pairwise_reverse.mp hlow, fun s hs => hne s (by simp [hs]),
    ⟨hup, fun s hs => hne s (by simp [hs])⟩, fun s hs => ?_, h.lt_of_mem_dropWhile,
    fun s hs s' hs' => hcross s (by simpa using hs) s' hs'⟩
  rw [lower, List.mem_reverse] at hs
  simpa using List.mem_takeWhile_imp hs

variable {below above : List Segment}

theorem Split.covers_iff (h : Split item below above) :
    Covers (below.reverse ++ above) item ↔ ∃ s, below.head? = some s ∧ item < s.2 := by
  rw [covers_append, covers_reverse]
  constructor
  · rintro (⟨s, hs, -, hlt⟩ | ⟨s, hs, hle, -⟩)
    · cases below with
      | nil => exact absurd hs (by simp)
      | cons a below =>
        refine ⟨a, rfl, ?_⟩
        rcases List.mem_cons.mp hs with rfl | hs
        · exact hlt
        · -- a segment further below ends before the nearest one starts
          have h1 := (List.pairwise_cons.mp h.below_pairwise).1 s hs
          have h2 := h.below_le a List.mem_cons_self
          omega
    · exact absurd hle (not_le.mpr (h.lt_above s hs))
  · rintro ⟨s, hs, hlt⟩
    have hmem : s ∈ below := List.mem_of_mem_head? hs
    exact .inl ⟨s, hmem, h.below_le s hmem, hlt⟩

/-! ### Merging -/

/-- A segment to be put between others, which may touch it. -/
structure Between (current : Segment) (below above : List Segment) : Prop where
  below_pairwise : below.Pairwise fun s s' => s'.2 < s.1
  below_nonempty : ∀ s ∈ below, s.1 < s.2
  above_separated : Separated above
  nonempty : current.1 < current.2
  below_le : ∀ s ∈ below, s.2 ≤ current.1
  le_above : ∀ s ∈ above, current.2 ≤ s.1

variable {current : Segment}

theorem Between.mergePrev (h : Between current below above) :
    Between (mergePrev current below).1 (mergePrev current below).2 above ∧
      (∀ s ∈ (SegmentTree.mergePrev current below).2,
        s.2 < (SegmentTree.mergePrev current below).1.1) ∧
      ∀ x, Covers ((SegmentTree.mergePrev current below).1 ::
        (SegmentTree.mergePrev current below).2) x ↔ Covers (current :: below) x := by
  cases below with
  | nil => exact ⟨h, by simp [SegmentTree.mergePrev], fun x => by rw [SegmentTree.mergePrev]⟩
  | cons prev below =>
    obtain ⟨hfirst, hrest⟩ := List.pairwise_cons.mp h.below_pairwise
    have hprev := h.below_nonempty prev List.mem_cons_self
    have hle := h.below_le prev List.mem_cons_self
    rw [SegmentTree.mergePrev]
    split
    · next htouch =>
      have hne := h.nonempty
      refine ⟨⟨hrest, fun s hs => h.below_nonempty s (List.mem_cons_of_mem _ hs),
        h.above_separated, ?_, fun s hs => (hfirst s hs).le, h.le_above⟩, hfirst, fun x => ?_⟩
      · dsimp only
        omega
      · simp only [covers_cons, ← or_assoc]
        refine or_congr_left ?_
        omega
    · next hgap =>
      refine ⟨h, fun s hs => ?_, fun x => Iff.rfl⟩
      dsimp only
      rcases List.mem_cons.mp hs with rfl | hs
      · omega
      · have := hfirst s hs
        omega

theorem Between.mergeNext (h : Between current below above) :
    Separated ((mergeNext current above).1 :: (mergeNext current above).2) ∧
      (SegmentTree.mergeNext current above).1.1 = current.1 ∧
      (∀ s ∈ (SegmentTree.mergeNext current above).2, current.1 < s.1) ∧
      ∀ x, Covers ((SegmentTree.mergeNext current above).1 ::
        (SegmentTree.mergeNext current above).2) x ↔ Covers (current :: above) x := by
  have hne := h.nonempty
  cases above with
  | nil =>
    rw [SegmentTree.mergeNext]
    exact ⟨⟨List.pairwise_singleton _ _, by simpa using hne⟩, rfl, by simp, fun x => Iff.rfl⟩
  | cons next above =>
    obtain ⟨hfirst, hrest⟩ := List.pairwise_cons.mp h.above_separated.pairwise
    have hnext := h.above_separated.nonempty next List.mem_cons_self
    have hle := h.le_above next List.mem_cons_self
    have htail := fun s hs => h.above_separated.nonempty s (List.mem_cons_of_mem next hs)
    rw [SegmentTree.mergeNext]
    split
    · next htouch =>
      refine ⟨⟨List.pairwise_cons.mpr ⟨hfirst, hrest⟩, ?_⟩, rfl, fun s hs => ?_, fun x => ?_⟩
      · intro s hs
        rcases List.mem_cons.mp hs with rfl | hs
        · dsimp only
          omega
        · exact htail s hs
      · have := hfirst s hs
        omega
      · simp only [covers_cons, ← or_assoc]
        refine or_congr_left ?_
        omega
    · next hgap =>
      refine ⟨⟨List.pairwise_cons.mpr ⟨fun s hs => ?_, h.above_separated.pairwise⟩, ?_⟩, rfl,
        fun s hs => ?_, fun x => Iff.rfl⟩
      · dsimp only
        rcases List.mem_cons.mp hs with rfl | hs
        · omega
        · have := hfirst s hs
          omega
      · intro s hs
        rcases List.mem_cons.mp hs with rfl | hs
        · exact hne
        · exact h.above_separated.nonempty s hs
      · have := h.le_above s hs
        omega

/-- **Putting a segment between others**, with both merges. -/
theorem Between.merge (h : Between current below above) :
    let (current', below') := SegmentTree.mergePrev current below
    let (current'', above') := SegmentTree.mergeNext current' above
    Separated (below'.reverse ++ current'' :: above') ∧
      ∀ x, Covers (below'.reverse ++ current'' :: above') x ↔
        Covers (below.reverse ++ current :: above) x := by
  obtain ⟨hprev, hgap, hcov⟩ := h.mergePrev
  obtain ⟨hsep, hfst, hlt, hcov'⟩ := hprev.mergeNext
  generalize SegmentTree.mergePrev current below = m at *
  obtain ⟨current', below'⟩ := m
  dsimp only at *
  generalize SegmentTree.mergeNext current' above = m' at *
  obtain ⟨current'', above'⟩ := m'
  dsimp only at *
  refine ⟨⟨List.pairwise_append.mpr ⟨List.pairwise_reverse.mpr hprev.below_pairwise, hsep.pairwise,
    fun s hs s' hs' => ?_⟩, fun s hs => ?_⟩, fun x => ?_⟩
  · rw [List.mem_reverse] at hs
    have h1 := hgap s hs
    rcases List.mem_cons.mp hs' with rfl | hs'
    · omega
    · have h2 := hlt s' hs'
      omega
  · rcases List.mem_append.mp hs with hs | hs
    · exact hprev.below_nonempty s (List.mem_reverse.mp hs)
    · exact hsep.nonempty s hs
  · have h1 := hcov x
    have h2 := hcov' x
    simp only [covers_append, covers_reverse, covers_cons] at h1 h2 ⊢
    tauto

/-! ### The operations -/

theorem sizeSucc_of_lt (h : x + 1 < 2 ^ 64) : sizeSucc x = x + 1 := Nat.mod_eq_of_lt h

theorem Split.place_of_covers (h : Split item below above)
    (hcov : Covers (below.reverse ++ above) item) : place item below = none := by
  obtain ⟨s, hs, hlt⟩ := h.covers_iff.mp hcov
  obtain ⟨rest, rfl⟩ := List.head?_eq_some_iff.mp hs
  rw [place, if_neg (by omega), if_neg (by omega)]

theorem Split.place_of_not_covers (h : Split item below above) (hitem : item + 1 < 2 ^ 64)
    (hcov : ¬Covers (below.reverse ++ above) item) :
    ∃ current below', place item below = some (current, below') ∧ Between current below' above ∧
      ∀ x, Covers (below'.reverse ++ current :: above) x ↔
        x = item ∨ Covers (below.reverse ++ above) x := by
  have habove : ∀ s ∈ above, item + 1 ≤ s.1 := fun s hs => h.lt_above s hs
  cases below with
  | nil =>
    refine ⟨(item, sizeSucc item), [], rfl, ⟨.nil, by simp, h.above_separated, ?_, by simp, ?_⟩,
      fun x => ?_⟩
    · dsimp only
      rw [sizeSucc_of_lt hitem]
      omega
    · rw [sizeSucc_of_lt hitem]
      exact habove
    · rw [sizeSucc_of_lt hitem]
      simp only [List.reverse_nil, List.nil_append, covers_cons]
      refine or_congr_left ?_
      omega
  | cons s below =>
    obtain ⟨hfirst, hrest⟩ := List.pairwise_cons.mp h.below_pairwise
    have hs := h.below_nonempty s List.mem_cons_self
    have hle := h.below_le s List.mem_cons_self
    have hge : s.2 ≤ item := by
      by_contra hlt
      exact hcov (h.covers_iff.mpr ⟨s, rfl, not_le.mp hlt⟩)
    rw [place]
    by_cases hgt : item > s.2
    · -- a new segment after the nearest one
      rw [if_pos hgt, if_neg (by omega)]
      refine ⟨_, _, rfl, ⟨h.below_pairwise, h.below_nonempty, h.above_separated, ?_,
        fun s' hs' => ?_, ?_⟩, fun x => ?_⟩
      · dsimp only
        rw [sizeSucc_of_lt hitem]
        omega
      · dsimp only
        rcases List.mem_cons.mp hs' with rfl | hs'
        · omega
        · have := hfirst s' hs'
          omega
      · rw [sizeSucc_of_lt hitem]
        exact habove
      · rw [sizeSucc_of_lt hitem]
        simp only [covers_append, covers_reverse, covers_cons]
        have hx : (item ≤ x ∧ x < item + 1) ↔ x = item := by omega
        tauto
    · -- the nearest segment ends at the number
      rw [if_neg hgt, if_pos (by omega)]
      refine ⟨_, _, rfl, ⟨hrest, fun s' hs' => h.below_nonempty s' (List.mem_cons_of_mem s hs'),
        h.above_separated, ?_, fun s' hs' => (hfirst s' hs').le, ?_⟩, fun x => ?_⟩
      · dsimp only
        rw [sizeSucc_of_lt hitem]
        omega
      · rw [sizeSucc_of_lt hitem]
        exact habove
      · rw [sizeSucc_of_lt hitem]
        simp only [covers_append, covers_reverse, covers_cons]
        have hx : (s.1 ≤ x ∧ x < item + 1) ↔ x = item ∨ s.1 ≤ x ∧ x < s.2 := by omega
        tauto

variable {s : Finset ℕ}

/-- **`Insert`** adds a number, and tells whether it is new. -/
theorem insert_eq (h : t.Represents s) (hitem : item + 1 < 2 ^ 64)
    (hcard : item ∉ s → s.card + 1 < 2 ^ 64) :
    (t.insert item).1 = decide (item ∉ s) ∧
      (t.insert item).2.Represents (Insert.insert item s) := by
  have hsplit := h.separated.split item
  have hcov := h.covers_iff
  rw [← lower_reverse_append_upper t item] at hcov
  by_cases hmem : item ∈ s
  · -- the number is there: nothing changes
    have hempty : t.segments.isEmpty = false := by
      obtain ⟨seg, hseg, -⟩ := (h.covers_iff item).mpr hmem
      exact List.isEmpty_eq_false_iff.mpr (List.ne_nil_of_mem hseg)
    rw [insert, hempty, hsplit.place_of_covers ((hcov item).mpr hmem), Finset.insert_eq_of_mem hmem]
    exact ⟨by simp [hmem], h⟩
  · have hcount : sizeSucc t.count = (Insert.insert item s).card := by
      rw [Finset.card_insert_of_notMem hmem, h.count_eq, sizeSucc_of_lt (hcard hmem)]
    rw [insert]
    split
    · next hempty =>
      have hnil : t.segments = [] := List.isEmpty_iff.mp hempty
      refine ⟨by simp [hmem], ⟨List.pairwise_singleton _ _, ?_⟩, fun x => ?_, hcount⟩
      · simp [sizeSucc_of_lt hitem]
      · have hx := h.covers_iff x
        rw [hnil] at hx
        rw [Finset.mem_insert, ← hx, sizeSucc_of_lt hitem]
        simp only [covers_cons, covers_nil, or_false]
        omega
    · obtain ⟨current, below, hplace, hbetween, hcover⟩ :=
        hsplit.place_of_not_covers hitem fun hc => hmem ((hcov item).mp hc)
      obtain ⟨hsep, hmerge⟩ := hbetween.merge
      rw [hplace]
      refine ⟨by simp [hmem], hsep, fun x => ?_, hcount⟩
      rw [Finset.mem_insert, ← hcov x, ← hcover x]
      exact hmerge x

/-- **`Contains`** is membership. -/
theorem contains_eq (h : t.Represents s) (item : ℕ) : t.contains item = decide (item ∈ s) := by
  have hcov := (h.separated.split item).covers_iff
  rw [lower_reverse_append_upper, h.covers_iff] at hcov
  rw [Bool.eq_iff_iff, decide_eq_true_iff, hcov, contains]
  cases t.lower item with
  | nil => simp
  | cons a below => simp

/-- **The test for an interval**: a single segment with both ends of the interval. -/
theorem covers_Icc_iff (h : t.Represents s) {n : ℕ} (hn : 1 ≤ n) (hs : s ⊆ Finset.Icc 1 n) :
    t.segmentsCount ≤ 1 ∧ t.contains 1 = true ∧ t.contains n = true ↔ s = Finset.Icc 1 n := by
  rw [contains_eq h, contains_eq h, decide_eq_true_iff, decide_eq_true_iff, segmentsCount]
  constructor
  · rintro ⟨hone, h1, hn⟩
    refine Finset.Subset.antisymm hs fun x hx => ?_
    rw [Finset.mem_Icc] at hx
    obtain ⟨a, ha, ha1, -⟩ := (h.covers_iff 1).mpr h1
    obtain ⟨b, hb, -, hbn⟩ := (h.covers_iff n).mpr hn
    -- both ends are in the same segment
    obtain ⟨seg, hseg⟩ := List.length_eq_one_iff.mp
      (show t.segments.length = 1 by have := List.length_pos_of_mem ha; omega)
    rw [hseg, List.mem_singleton] at ha hb
    refine (h.covers_iff x).mp ⟨seg, by rw [hseg]; exact List.mem_singleton_self seg, ?_, ?_⟩
    · rw [← ha]; omega
    · rw [← hb]; omega
  · rintro rfl
    refine ⟨?_, Finset.mem_Icc.mpr ⟨le_rfl, hn⟩, Finset.mem_Icc.mpr ⟨hn, le_rfl⟩⟩
    by_contra hmany
    -- the end of the first of two segments would be missing
    obtain ⟨a, b, rest, hseg⟩ : ∃ a b rest, t.segments = a :: b :: rest := by
      match hl : t.segments with
      | [] => simp [hl] at hmany
      | [a] => simp [hl] at hmany
      | a :: b :: rest => exact ⟨a, b, rest, rfl⟩
    have hsep := h.separated
    rw [hseg] at hsep
    obtain ⟨ha, hpair⟩ := List.pairwise_cons.mp hsep.pairwise
    have hab := ha b List.mem_cons_self
    have hane := hsep.nonempty a List.mem_cons_self
    have hbne := hsep.nonempty b (by simp)
    have ha1 := (h.covers_iff a.1).mp ⟨a, by simp [hseg], le_rfl, hane⟩
    have hb1 := (h.covers_iff b.1).mp ⟨b, by simp [hseg], le_rfl, hbne⟩
    rw [Finset.mem_Icc] at ha1 hb1
    obtain ⟨c, hc, hc1, hc2⟩ := (h.covers_iff a.2).mpr (Finset.mem_Icc.mpr (by omega))
    rw [hseg] at hc
    rcases List.mem_cons.mp hc with rfl | hc
    · omega
    · have := ha c hc
      omega

/-! ### The canonical form -/

theorem Separated.lt_of_covers_tail (h : Separated (a :: l)) (hx : Covers l x) : a.2 < x := by
  obtain ⟨s, hs, hle, -⟩ := hx
  exact ((List.pairwise_cons.mp h.pairwise).1 s hs).trans_le hle

theorem Separated.covers_tail_iff (h : Separated (a :: l)) (x : ℕ) :
    Covers l x ↔ Covers (a :: l) x ∧ a.2 < x := by
  rw [covers_cons]
  constructor
  · intro hx
    exact ⟨.inr hx, h.lt_of_covers_tail hx⟩
  · rintro ⟨hx | hx, hlt⟩
    · omega
    · exact hx

theorem Separated.first_le (h : Separated (a :: l)) (hx : Covers (a :: l) x) : a.1 ≤ x := by
  rcases covers_cons.mp hx with hx | hx
  · exact hx.1
  · exact (h.nonempty a List.mem_cons_self).le.trans (h.lt_of_covers_tail hx).le

/-- The first segment ends no later than that of a list that covers the same numbers. -/
theorem Separated.end_le {b : Segment} (h : Separated (a :: l)) (hfirst : a.1 = b.1)
    (hcov : ∀ x, Covers (b :: l') x → Covers (a :: l) x) : b.2 ≤ a.2 := by
  by_contra hlt
  have ha := h.nonempty a List.mem_cons_self
  -- the number at the end of `a` is in the gap after it
  rcases covers_cons.mp (hcov a.2 (covers_cons.mpr (.inl (by omega)))) with hx | hx
  · omega
  · exact (h.lt_of_covers_tail hx).false

/-- **Separated segments are determined by the numbers they cover.** -/
theorem Separated.eq_of_covers (h : Separated l) (h' : Separated l')
    (hcov : ∀ x, Covers l x ↔ Covers l' x) : l = l' := by
  induction l generalizing l' with
  | nil =>
    cases l' with
    | nil => rfl
    | cons b l' =>
      have hb := h'.nonempty b List.mem_cons_self
      exact absurd ((hcov b.1).mpr (covers_cons.mpr (.inl ⟨le_rfl, hb⟩))) (covers_nil _)
  | cons a l ih =>
    have ha := h.nonempty a List.mem_cons_self
    have hcova := (hcov a.1).mp (covers_cons.mpr (.inl ⟨le_rfl, ha⟩))
    cases l' with
    | nil => exact absurd hcova (covers_nil _)
    | cons b l' =>
      have hb := h'.nonempty b List.mem_cons_self
      have hcovb := (hcov b.1).mpr (covers_cons.mpr (.inl ⟨le_rfl, hb⟩))
      have hfst : a.1 = b.1 := (h.first_le hcovb).antisymm (h'.first_le hcova)
      have hsnd : a.2 = b.2 :=
        (h'.end_le hfst.symm fun x => (hcov x).mp).antisymm
          (h.end_le hfst fun x => (hcov x).mpr)
      have htail : l = l' := by
        refine ih h.tail h'.tail fun x => ?_
        rw [h.covers_tail_iff, h'.covers_tail_iff, hcov x, hsnd]
      rw [Prod.ext hfst hsnd, htail]

theorem Represents.getSegments_eq {t' : SegmentTree} (h : t.Represents s) (h' : t'.Represents s) :
    t.getSegments = t'.getSegments :=
  h.separated.eq_of_covers h'.separated fun x => (h.covers_iff x).trans (h'.covers_iff x).symm

/-! ### Runs -/

theorem card_lt_of_forall_lt (hs : ∀ x ∈ s, x + 1 < 2 ^ 64) : s.card < 2 ^ 64 := by
  have hsub : s ⊆ Finset.range (2 ^ 64 - 1) := fun x hx => by
    have := hs x hx
    exact Finset.mem_range.mpr (by omega)
  have hcard := Finset.card_le_card hsub
  rw [Finset.card_range] at hcard
  omega

theorem insert_eq_of_forall_lt (h : t.Represents s)
    (hs : ∀ x ∈ Insert.insert item s, x + 1 < 2 ^ 64) :
    (t.insert item).1 = decide (item ∉ s) ∧
      (t.insert item).2.Represents (Insert.insert item s) := by
  refine insert_eq h (hs item (Finset.mem_insert_self _ _)) fun hmem => ?_
  rw [← Finset.card_insert_of_notMem hmem]
  exact card_lt_of_forall_lt hs

/-- **A run of calls**: every call tells whether its number is new, and the tree holds them all. -/
theorem insertAll_eq (h : t.Represents s) {l : List ℕ} (hl : ∀ x ∈ s ∪ l.toFinset, x + 1 < 2 ^ 64) :
    (∀ k, (t.insertAll l).1[k]? = l[k]?.map fun x => decide (x ∉ s ∪ (l.take k).toFinset)) ∧
      (t.insertAll l).2.Represents (s ∪ l.toFinset) := by
  induction l generalizing t s with
  | nil => exact ⟨fun k => rfl, by simpa [insertAll] using h⟩
  | cons item l ih =>
    have hunion (l' : List ℕ) :
        s ∪ (item :: l').toFinset = Insert.insert item s ∪ l'.toFinset := by
      rw [List.toFinset_cons, Finset.union_insert, Finset.insert_union]
    rw [hunion] at hl ⊢
    obtain ⟨hnew, hrep⟩ := insert_eq_of_forall_lt h fun x hx =>
      hl x (Finset.mem_union_left _ hx)
    obtain ⟨hrest, hfinal⟩ := ih hrep hl
    refine ⟨fun k => ?_, hfinal⟩
    cases k with
    | zero => simp [insertAll, hnew]
    | succ k =>
      rw [insertAll, List.take_succ_cons, hunion]
      exact hrest k

/-- **The tree as a set of numbers**: after any calls of `Insert` it holds what was inserted, the
calls have told which insertions were the first ones of their numbers, and the segments are
separated and depend on nothing but the set. -/
theorem insertAll_empty (l : List ℕ) (hl : ∀ x ∈ l, x < 2 ^ 64 - 1) :
    (∀ x, (empty.insertAll l).2.contains x = decide (x ∈ l)) ∧
    (∀ k, (empty.insertAll l).1[k]? = l[k]?.map fun x => decide (x ∉ l.take k)) ∧
    (empty.insertAll l).2.count = l.toFinset.card ∧
    Separated (empty.insertAll l).2.getSegments ∧
    ∀ l', (∀ x, x ∈ l' ↔ x ∈ l) →
      (empty.insertAll l').2.getSegments = (empty.insertAll l).2.getSegments := by
  have hrun (l' : List ℕ) (hl' : ∀ x, x ∈ l' ↔ x ∈ l) := by
    refine insertAll_eq empty_represents (l := l') fun x hx => ?_
    have hlt := hl x ((hl' x).mp (by simpa using hx))
    omega
  simp only [Finset.empty_union, List.mem_toFinset] at hrun
  obtain ⟨hnew, hrep⟩ := hrun l fun x => Iff.rfl
  refine ⟨fun x => ?_, hnew, hrep.count_eq, hrep.separated, fun l' hl' => ?_⟩
  · rw [contains_eq hrep]
    exact decide_eq_decide.mpr List.mem_toFinset
  · obtain ⟨-, hrep'⟩ := hrun l' hl'
    rw [show l'.toFinset = l.toFinset from List.toFinset.ext hl'] at hrep'
    exact hrep'.getSegments_eq hrep

/-- Four calls, with a merge on both sides and a repetition. -/
theorem insertAll_empty_merge :
    (empty.insertAll [3, 1, 2, 1]).2.count = [3, 1, 2, 1].toFinset.card ∧
      (empty.insertAll [1, 2, 3]).2.getSegments = [(1, 4)] := by
  have hrun := insertAll_empty [3, 1, 2, 1] (by decide)
  refine ⟨hrun.2.2.1, (hrun.2.2.2.2 [1, 2, 3] fun x => ?_).trans (by decide)⟩
  simp only [List.mem_cons]
  tauto

end SegmentTree

end Yacl.Utils
