import Mathlib.Data.Finset.Sort
import Yacl.Base.Exception
import Yacl.Base.Int128
import Yacl.Lib.Loop

/-!
# Cuckoo hashing

`CuckooIndex` of `yacl/utils/cuckoo_index.cc` puts the items `0, 1, …`, of which it has the hash
codes, into bins. An item may lie in a bin that one of its hash functions gives. `Insert` puts a new
item into the bin of the first one, and what was there is evicted and tried with its next hash
function, until no item is left or there have been too many tries; then the rest goes to the stash.

The invariant (`Placed`) counts the **copies** of an item in the bins, in flight and in the stash:
each exchange keeps the sum (`Placed.step`).

The constructor checks the number of hash functions with an expression that overflows for `0` and
for some large numbers (`Options.Accepted`). With none, an item lies in a bin by the hash function
`0` that does not exist, and the first eviction divides by zero. With too many, a hash function
reads past the end of the code.
-/

open Loop

namespace Yacl.Utils.CuckooIndex

/-! ### Bins -/

/-- `CuckooIndex::Bin`: the index of an input and, in the highest byte, the number of its hash. -/
structure Bin where
  /-- `encoded_`. -/
  encoded : ℕ
deriving DecidableEq, Repr

namespace Bin

/-- `kEmpty`. -/
def kEmpty : ℕ := 2 ^ 64 - 1

/-- The default constructor. -/
def empty : Bin := ⟨kEmpty⟩

/-- `HashIdx`. -/
def hashIdx (bin : Bin) : ℕ := (bin.encoded >>> 56) % 2 ^ 8

/-- `InputIdx`. -/
def inputIdx (bin : Bin) : ℕ := bin.encoded &&& ((2 ^ 64 - 1) >>> 8)

/-- `IsEmpty`. -/
def isEmpty (bin : Bin) : Bool := decide (bin.encoded = kEmpty)

/-- `Encode`, whose second argument is a `uint8_t`. -/
def encode (inputIdx hashIdx : ℕ) : ℕ := (inputIdx ||| (hashIdx % 2 ^ 8) <<< 56) % 2 ^ 64

/-- The bin holds the item. -/
def holds (k : ℕ) (bin : Bin) : Bool := !bin.isEmpty && decide (bin.inputIdx = k)

end Bin

/-! ### The index -/

/-- `CuckooIndex::Options`. Of `scale_factor` there is the product that `NumBins` starts from. -/
structure Options where
  numInput : ℕ
  numStash : ℕ
  numHash : ℕ
  /-- `num_input * scale_factor`, a product of two `double`s, converted to a `uint64_t`. -/
  scaledInput : ℕ
  maxTryCount : ℕ
  numHash_lt : numHash < 2 ^ 64
deriving DecidableEq, Repr

/-- `NumBins`: a small index without a stash gets eight more bins. -/
def Options.numBins (options : Options) : ℕ :=
  if options.numStash = 0 ∧ options.numInput < 256 then (options.scaledInput + 8) % 2 ^ 64
  else options.scaledInput

/-- The check of the constructor, in `uint64_t`. -/
def Options.Accepted (options : Options) : Prop :=
  ((options.numHash + 2 ^ 64 - 1) * 2 + 8) % 2 ^ 64 ≤ 16

instance (options : Options) : Decidable options.Accepted := inferInstanceAs (Decidable (_ ≤ _))

/-- Eight bytes of a code from byte `idx * kBlockSize` on. -/
def hashValue (code : Uint128) (idx : ℕ) : ℕ := code.toNat >>> (8 * (idx * 2)) % 2 ^ 64

/-- `HashRoom::GetHash`. -/
def getHash (code : Uint128) (idx : ℕ) : Except Exception ℕ := do
  definedIf (idx * 2 + 8 ≤ 16)
  pure (hashValue code idx)

/-- `CuckooIndex`: the bins, the stash, and the hashes of all inputs so far. -/
structure Index where
  options : Options
  bins : List Bin
  stash : List Bin
  hashes : List Uint128
deriving DecidableEq, Repr

/-- The constructor. -/
def construct (options : Options) : Except Exception Index := do
  enforce options.Accepted ("(options_.num_hash - 1) * HashRoom::kBlockSize + " ++
    "sizeof(uint64_t) <= sizeof(HashType)") ""
  pure ⟨options, List.replicate options.numBins .empty, List.replicate options.numStash .empty, []⟩

/-- The variables of a round of `Insert`. -/
structure Round where
  bins : List Bin
  candidates : List Bin
  writeIdx : ℕ
deriving DecidableEq, Repr

/-- The item that was in the bin is tried with its next hash function. -/
def evict (options : Options) (bins : List Bin) (s : Round) (evicted : Bin) :
    Except Exception Round := do
  definedIf (options.numHash ≠ 0)
  let nextCandid := Bin.encode evicted.inputIdx ((evicted.hashIdx + 1) % options.numHash)
  let candidates ← vecSet s.candidates s.writeIdx ⟨nextCandid⟩
  pure ⟨bins, candidates, s.writeIdx + 1⟩

/-- A candidate of a round. -/
def roundStep (options : Options) (hashes : List Uint128) (i : ℕ) (s : Round) :
    Except Exception Round := do
  let candid ← vecGet s.candidates i
  let code ← vecGet hashes candid.inputIdx
  let hash ← getHash code candid.hashIdx
  definedIf (options.numBins ≠ 0)
  let binIdx := hash % options.numBins
  let evicted ← vecGet s.bins binIdx
  let bins ← vecSet s.bins binIdx candid
  if evicted.isEmpty then pure { s with bins } else evict options bins s evicted

/-- A round of `Insert`: the bins and the candidates after it. -/
def round (options : Options) (hashes : List Uint128) (s : List Bin × List Bin) :
    Except Exception (List Bin × List Bin) := do
  let t ← forLoop s.2.length (roundStep options hashes) ⟨s.1, s.2, 0⟩
  pure (t.bins, t.candidates.take t.writeIdx)

/-- The rounds of `Insert`, at most `tries` of them. -/
def rounds (options : Options) (hashes : List Uint128) :
    ℕ → List Bin × List Bin → Except Exception (List Bin × List Bin)
  | 0, s => pure s
  | tries + 1, s =>
    if s.2 = [] then pure s else round options hashes s >>= rounds options hashes tries

/-- `PutToStash`. -/
def putToStash (stash : List Bin) (inputIdx : ℕ) : Except Exception (List Bin) :=
  match stash.findIdx? Bin.isEmpty with
  | some i => pure (stash.set i ⟨inputIdx⟩)
  | none =>
    throw (.runtimeError s!"Cannot find empty bin in stash for input_idx={inputIdx}")

/-- `Insert`. -/
def insert (index : Index) (codes : List Uint128) : Except Exception Index := do
  let inputOffset := index.hashes.length
  let hashes := index.hashes ++ codes
  enforce (hashes.length ≤ index.options.numInput) "hashes_.size() <= options_.num_input" ""
  let candidates := (List.range codes.length).map fun i => Bin.mk ((inputOffset + i) % 2 ^ 64)
  let s ← rounds index.options hashes index.options.maxTryCount (index.bins, candidates)
  let stash ← s.2.foldlM (fun stash bin => putToStash stash bin.inputIdx) index.stash
  pure ⟨index.options, s.1, stash, hashes⟩

/-- One of the two loops of `SanityCheck` that collect the items. -/
def collect (set : Finset ℕ) (bin : Bin) : Except Exception (Finset ℕ) :=
  if bin.isEmpty then pure set
  else do
    enforce (bin.inputIdx ∉ set) "set.insert(bin.InputIdx()).second"
      s!"Input={bin.inputIdx} already exists."
    pure (Insert.insert bin.inputIdx set)

/-- `SanityCheck`. -/
def sanityCheck (index : Index) : Except Exception Unit := do
  let set ← index.bins.foldlM collect ∅
  let set ← index.stash.foldlM collect set
  enforce (set.card = index.options.numInput) "set.size() == options_.num_input" ""
  let _ ← (set.sort).foldlM (fun idx i => do
    enforce (idx = i) "idx++ == i" s!"Cannot find input={i}"
    pure (idx + 1)) 0
  pure ()

/-- The loop of `MinCollidingHashIdx` from `i` on, with `n` hash functions to go. -/
def minColliding (options : Options) (code : Except Exception Uint128) (binIndex : ℕ) :
    ℕ → ℕ → Except Exception ℕ
  | 0, _ => pure (2 ^ 8 - 1)
  | n + 1, i => do
    let hash ← getHash (← code) i
    definedIf (options.numBins ≠ 0)
    if hash % options.numBins = binIndex then pure (i % 2 ^ 8)
    else minColliding options code binIndex n (i + 1)

/-- `MinCollidingHashIdx`. -/
def minCollidingHashIdx (index : Index) (binIndex : ℕ) : Except Exception ℕ := do
  let bin ← vecGet index.bins binIndex
  minColliding index.options (vecGet index.hashes bin.inputIdx) binIndex index.options.numHash 0

/-- An index after calls of `Insert`. -/
def run (options : Options) (batches : List (List Uint128)) : Except Exception Index := do
  batches.foldlM insert (← construct options)

/-! ### Encoded items -/

namespace Bin

theorem inputIdx_eq (bin : Bin) : bin.inputIdx = bin.encoded % 2 ^ 56 :=
  Nat.and_two_pow_sub_one_eq_mod bin.encoded 56

variable {idx h : ℕ}

theorem encode_eq (hidx : idx < 2 ^ 56) (hh : h < 2 ^ 8) : encode idx h = h * 2 ^ 56 + idx := by
  rw [encode, Nat.mod_eq_of_lt hh, Nat.or_comm, ← Nat.shiftLeft_add_eq_or_of_lt hidx,
    Nat.shiftLeft_eq, Nat.mod_eq_of_lt (by omega)]

/-- The parts of an encoded item. The hash function `255` is not used, so that it is not taken for
an empty bin. -/
structure IsItem (idx h : ℕ) (bin : Bin) : Prop where
  inputIdx_eq : bin.inputIdx = idx
  hashIdx_eq : bin.hashIdx = h
  isEmpty_eq : bin.isEmpty = false

theorem isItem_encode (hidx : idx < 2 ^ 56) (hh : h < 2 ^ 8 - 1) : IsItem idx h ⟨encode idx h⟩ := by
  rw [encode_eq hidx (by omega)]
  refine ⟨?_, ?_, decide_eq_false ?_⟩
  · rw [inputIdx_eq]
    dsimp only
    omega
  · rw [hashIdx]
    dsimp only
    omega
  · rw [kEmpty]
    dsimp only
    omega

theorem isItem_mk (hidx : idx < 2 ^ 56) : IsItem idx 0 ⟨idx⟩ := by
  have hitem := isItem_encode hidx (by decide : 0 < 2 ^ 8 - 1)
  rwa [encode_eq hidx (by decide), Nat.zero_mul, Nat.zero_add] at hitem

variable {bin : Bin}

theorem IsItem.holds_eq (hitem : IsItem idx h bin) (k : ℕ) : bin.holds k = decide (idx = k) := by
  rw [holds, hitem.isEmpty_eq, hitem.inputIdx_eq]
  rfl

theorem holds_of_isEmpty (h : bin.isEmpty = true) (k : ℕ) : bin.holds k = false := by
  rw [holds, h]
  rfl

theorem holds_eq (h : bin.isEmpty = false) (k : ℕ) : bin.holds k = decide (bin.inputIdx = k) := by
  rw [holds, h]
  rfl

end Bin

/-! ### Copies of an item -/

/-- How many entries of a list hold the item. -/
def copies (k : ℕ) (l : List Bin) : ℕ := l.countP (Bin.holds k)

theorem copies_nil (k : ℕ) : copies k [] = 0 := rfl

theorem copies_append (k : ℕ) (l l' : List Bin) : copies k (l ++ l') = copies k l + copies k l' :=
  List.countP_append

theorem copies_cons (k : ℕ) (bin : Bin) (l : List Bin) :
    copies k (bin :: l) = copies k l + if bin.holds k then 1 else 0 :=
  List.countP_cons

theorem copies_replicate_empty (k n : ℕ) : copies k (List.replicate n .empty) = 0 := by
  refine List.countP_eq_zero.mpr fun bin hbin => ?_
  rw [List.eq_of_mem_replicate hbin]
  exact Bool.false_ne_true

theorem copies_set {l : List Bin} {b : ℕ} {old : Bin} (h : l[b]? = some old) (bin : Bin) (k : ℕ) :
    copies k (l.set b bin) + (if old.holds k then 1 else 0) =
      copies k l + if bin.holds k then 1 else 0 := by
  obtain ⟨hb, rfl⟩ := List.getElem?_eq_some_iff.mp h
  have hpos : (l[b].holds k) = true → 0 < copies k l := fun hh =>
    List.countP_pos_iff.mpr ⟨_, List.getElem_mem hb, hh⟩
  rw [copies, List.countP_set hb, ← copies]
  split at * <;> grind

/-! ### The invariant -/

/-- An entry that may lie in bin `b`. -/
def InBin (options : Options) (hashes : List Uint128) (b : ℕ) (bin : Bin) : Prop :=
  bin.hashIdx < options.numHash ∧ ∃ code, hashes[bin.inputIdx]? = some code ∧
    hashValue code bin.hashIdx % options.numBins = b

/-- **The invariant**: entries lie where they may, and every item is held once, by a bin, by the
stash or by a candidate that is in flight. -/
structure Placed (options : Options) (hashes : List Uint128) (bins flight stash : List Bin) :
    Prop where
  length_eq : bins.length = options.numBins
  inBin : ∀ b bin, bins[b]? = some bin → bin.isEmpty = false → InBin options hashes b bin
  candidate : ∀ bin ∈ flight, bin.isEmpty = false ∧ bin.hashIdx < options.numHash
  once : ∀ k, copies k bins + copies k flight + copies k stash =
    if k < hashes.length then 1 else 0

section Invariant

variable {options : Options} {hashes : List Uint128} {bins flight stash : List Bin}

theorem Placed.perm (h : Placed options hashes bins flight stash) {flight' : List Bin}
    (hperm : flight.Perm flight') : Placed options hashes bins flight' stash where
  length_eq := h.length_eq
  inBin := h.inBin
  candidate bin hbin := h.candidate bin (hperm.mem_iff.mpr hbin)
  once k := by
    rw [← h.once k, copies, copies, copies, copies, hperm.countP_eq]

variable {bin : Bin}

theorem Placed.inputIdx_lt (h : Placed options hashes bins (bin :: flight) stash) :
    bin.inputIdx < hashes.length := by
  have honce := h.once bin.inputIdx
  rw [copies_cons, Bin.holds_eq (h.candidate bin List.mem_cons_self).1, decide_eq_true rfl,
    if_pos rfl] at honce
  by_contra hge
  rw [if_neg hge] at honce
  omega

theorem Placed.exchange {old : Bin} {b : ℕ} {flight' : List Bin}
    (h : Placed options hashes bins (bin :: flight) stash) (hb : bins[b]? = some old)
    (hin : InBin options hashes b bin)
    (hcandidate : ∀ bin ∈ flight', bin.isEmpty = false ∧ bin.hashIdx < options.numHash)
    (hcopies : ∀ k, copies k flight' = copies k flight + if old.holds k then 1 else 0) :
    Placed options hashes (bins.set b bin) flight' stash where
  length_eq := by rw [List.length_set, h.length_eq]
  inBin c bin' hc hne := by
    rw [List.getElem?_set] at hc
    split at hc
    · next heq =>
      split at hc
      · rw [← Option.some_inj.mp hc, ← heq]
        exact hin
      · nomatch hc
    · exact h.inBin c bin' hc hne
  candidate := hcandidate
  once k := by
    have hset := copies_set hb bin k
    have honce := h.once k
    rw [copies_cons] at honce
    rw [hcopies]
    omega

/-- The hash functions that the constructor is meant to allow do not read past the code. -/
theorem getHash_of_lt {code : Uint128} {idx : ℕ} (h : idx < 5) :
    getHash code idx = .ok (hashValue code idx) := by
  rw [getHash, definedIf_of_pos (by omega)]
  rfl

theorem Placed.exists_inBin (h : Placed options hashes bins (bin :: flight) stash)
    (hbins : 0 < options.numBins) :
    ∃ code old, hashes[bin.inputIdx]? = some code ∧
      bins[hashValue code bin.hashIdx % options.numBins]? = some old ∧
      InBin options hashes (hashValue code bin.hashIdx % options.numBins) bin := by
  obtain ⟨code, hcode⟩ : ∃ code, hashes[bin.inputIdx]? = some code :=
    ⟨_, List.getElem?_eq_getElem h.inputIdx_lt⟩
  have hlt := Nat.mod_lt (hashValue code bin.hashIdx) hbins
  exact ⟨code, _, hcode, List.getElem?_eq_getElem (h.length_eq.symm ▸ hlt),
    (h.candidate bin List.mem_cons_self).2, code, hcode, rfl⟩

section Rounds

variable (hhash : 1 ≤ options.numHash ∧ options.numHash ≤ 5) (hbins : 0 < options.numBins)
  (hmem : hashes.length ≤ 2 ^ 56)

include hhash hbins hmem

/-- **A candidate of a round.** Those before it have been exchanged for the ones that are written
already, and those after it are to come. -/
theorem Placed.step {s : Round} {i : ℕ} (hi : i < s.candidates.length) (hw : s.writeIdx ≤ i)
    (h : Placed options hashes s.bins (s.candidates.take s.writeIdx ++ s.candidates.drop i)
      stash) :
    ∃ t, roundStep options hashes i s = .ok t ∧ t.candidates.length = s.candidates.length ∧
      t.writeIdx ≤ i + 1 ∧ Placed options hashes t.bins
        (t.candidates.take t.writeIdx ++ t.candidates.drop (i + 1)) stash := by
  rw [List.drop_eq_getElem_cons hi] at h
  have hfirst := h.perm List.perm_middle
  obtain ⟨code, old, hcode, hold, hin⟩ := hfirst.exists_inBin hbins
  have hnonempty := hfirst.candidate _ List.mem_cons_self
  obtain ⟨hb, -⟩ := List.getElem?_eq_some_iff.mp hold
  have hrest : ∀ bin ∈ s.candidates.take s.writeIdx ++ s.candidates.drop (i + 1),
      bin.isEmpty = false ∧ bin.hashIdx < options.numHash :=
    fun bin hbin => hfirst.candidate bin (List.mem_cons_of_mem _ hbin)
  rw [roundStep, vecGet_of_getElem? (List.getElem?_eq_getElem hi), ok_bind,
    vecGet_of_getElem? hcode, ok_bind, getHash_of_lt (by omega), ok_bind, definedIf_bind (by omega)]
  dsimp only
  rw [vecGet_of_getElem? hold, ok_bind, vecSet_of_lt hb, ok_bind]
  by_cases hempty : old.isEmpty = true
  · rw [if_pos hempty]
    refine ⟨_, rfl, rfl, by dsimp only; omega, hfirst.exchange hold hin hrest fun k => ?_⟩
    rw [Bin.holds_of_isEmpty hempty]
    rfl
  · rw [Bool.not_eq_true] at hempty
    obtain ⟨hlt, code', hcode', -⟩ := h.inBin _ _ hold hempty
    have hidx : old.inputIdx < 2 ^ 56 :=
      (List.getElem?_eq_some_iff.mp hcode').1.trans_le hmem
    have hnext := Nat.mod_lt (old.hashIdx + 1) hhash.1
    have hitem := Bin.isItem_encode hidx (h := (old.hashIdx + 1) % options.numHash) (by omega)
    rw [if_neg (by rw [hempty]; decide), evict, definedIf_bind (by omega)]
    dsimp only
    rw [vecSet_of_lt (by omega)]
    refine ⟨_, rfl, List.length_set, by dsimp only; omega, ?_⟩
    rw [List.drop_set_of_lt (by omega), List.take_add_one, List.take_set_of_le le_rfl,
      List.getElem?_set_self (by omega), Option.toList_some, List.append_assoc,
      List.singleton_append]
    refine (hfirst.exchange hold hin ?_ fun k => ?_).perm List.perm_middle.symm
    · intro bin hbin
      rcases List.mem_cons.mp hbin with rfl | hbin
      · exact ⟨hitem.isEmpty_eq, by rwa [hitem.hashIdx_eq]⟩
      · exact hrest bin hbin
    · rw [copies_cons, hitem.holds_eq, Bin.holds_eq hempty]

theorem Placed.round {flight : List Bin} (h : Placed options hashes bins flight stash) :
    ∃ s, round options hashes (bins, flight) = .ok s ∧
      Placed options hashes s.1 s.2 stash := by
  obtain ⟨t, ht, hlen, -, hplaced⟩ := forLoop_ok (f := roundStep options hashes)
    (s := ⟨bins, flight, 0⟩)
    (fun i s => s.candidates.length = flight.length ∧ s.writeIdx ≤ i ∧
      Placed options hashes s.bins (s.candidates.take s.writeIdx ++ s.candidates.drop i) stash)
    ⟨rfl, le_rfl, h⟩ fun i hi s hs => by
      obtain ⟨hlen, hw, hplaced⟩ := hs
      obtain ⟨t, ht, htlen, htw, htplaced⟩ :=
        hplaced.step hhash hbins hmem (hlen.symm ▸ hi) hw
      exact ⟨t, ht, htlen.trans hlen, htw, htplaced⟩
  rw [List.drop_eq_nil_of_le hlen.le, List.append_nil] at hplaced
  refine ⟨(t.bins, t.candidates.take t.writeIdx), ?_, hplaced⟩
  rw [CuckooIndex.round, ht]
  rfl

theorem Placed.rounds (tries : ℕ) {flight : List Bin}
    (h : Placed options hashes bins flight stash) :
    ∃ s, rounds options hashes tries (bins, flight) = .ok s ∧
      Placed options hashes s.1 s.2 stash := by
  induction tries generalizing bins flight with
  | zero => exact ⟨_, rfl, h⟩
  | succ tries ih =>
    rw [CuckooIndex.rounds]
    split
    · exact ⟨_, rfl, h⟩
    · obtain ⟨⟨bins', flight'⟩, hround, hplaced⟩ := h.round hhash hbins hmem
      rw [hround]
      exact ih hplaced

end Rounds

theorem Placed.putToStash (h : Placed options hashes bins (bin :: flight) stash)
    (hmem : hashes.length ≤ 2 ^ 56) :
    Safe (Placed options hashes bins flight) (putToStash stash bin.inputIdx) := by
  rw [CuckooIndex.putToStash]
  split
  · next i hi =>
    obtain ⟨hlt, hempty, -⟩ := List.findIdx?_eq_some_iff_getElem.mp hi
    have hitem := Bin.isItem_mk (h.inputIdx_lt.trans_le hmem)
    refine .ok ⟨h.length_eq, h.inBin, fun bin' hbin' =>
      h.candidate bin' (List.mem_cons_of_mem bin hbin'), fun k => ?_⟩
    have hset := copies_set (List.getElem?_eq_getElem hlt) ⟨bin.inputIdx⟩ k
    have honce := h.once k
    rw [Bin.holds_of_isEmpty hempty, if_neg Bool.false_ne_true, hitem.holds_eq] at hset
    rw [copies_cons, Bin.holds_eq (h.candidate bin List.mem_cons_self).1] at honce
    omega
  · exact .error trivial

theorem copies_newCandidates (k offset n : ℕ) (h : offset + n ≤ 2 ^ 56) :
    copies k ((List.range n).map fun i => Bin.mk ((offset + i) % 2 ^ 64)) =
      if offset ≤ k ∧ k < offset + n then 1 else 0 := by
  induction n with
  | zero =>
    rw [if_neg (by omega)]
    rfl
  | succ n ih =>
    have hitem := Bin.isItem_mk (by omega : offset + n < 2 ^ 56)
    rw [List.range_succ, List.map_append, copies_append, ih (by omega), List.map_singleton,
      Nat.mod_eq_of_lt (by omega), copies_cons, hitem.holds_eq]
    simp only [decide_eq_true_eq, copies_nil]
    split_ifs <;> omega

theorem Placed.newCandidates (h : Placed options hashes bins [] stash) {codes : List Uint128}
    (hhash : 1 ≤ options.numHash) (hmem : (hashes ++ codes).length ≤ 2 ^ 56) :
    Placed options (hashes ++ codes) bins ((List.range codes.length).map fun i =>
      Bin.mk ((hashes.length + i) % 2 ^ 64)) stash where
  length_eq := h.length_eq
  inBin b bin hb hne := by
    obtain ⟨hlt, code, hcode, hbin⟩ := h.inBin b bin hb hne
    refine ⟨hlt, code, ?_, hbin⟩
    rw [List.getElem?_append_left (List.getElem?_eq_some_iff.mp hcode).1, hcode]
  candidate bin hbin := by
    obtain ⟨i, hi, rfl⟩ := List.mem_map.mp hbin
    rw [List.length_append] at hmem
    rw [List.mem_range] at hi
    have hitem := Bin.isItem_mk (by omega : hashes.length + i < 2 ^ 56)
    rw [Nat.mod_eq_of_lt (by omega), hitem.hashIdx_eq]
    exact ⟨hitem.isEmpty_eq, hhash⟩
  once k := by
    rw [List.length_append] at hmem ⊢
    have honce := h.once k
    rw [copies_newCandidates k _ _ hmem]
    rw [copies_nil] at honce
    split_ifs at * <;> omega

/-- **`Insert` keeps the invariant**, and all its accesses are defined. -/
theorem safe_insert {index : Index}
    (h : Placed index.options index.hashes index.bins [] index.stash)
    (hhash : 1 ≤ index.options.numHash ∧ index.options.numHash ≤ 5)
    (hbins : 0 < index.options.numBins) {codes : List Uint128}
    (hmem : (index.hashes ++ codes).length ≤ 2 ^ 56) :
    Safe (fun index' => index'.options = index.options ∧ index'.hashes = index.hashes ++ codes ∧
      Placed index.options index'.hashes index'.bins [] index'.stash) (insert index codes) := by
  obtain ⟨s, hrounds, hplaced⟩ :=
    (h.newCandidates hhash.1 hmem).rounds hhash hbins hmem index.options.maxTryCount
  refine safe_enforce_bind fun _ => ?_
  dsimp only
  rw [hrounds]
  refine (safe_foldlM (Placed index.options (index.hashes ++ codes) s.1)
    (fun bin l stash hplaced => hplaced.putToStash hmem) hplaced).bind fun stash hstash => ?_
  exact .ok ⟨rfl, rfl, hstash⟩

theorem placed_nil (options : Options) : Placed options [] (List.replicate options.numBins .empty)
    [] (List.replicate options.numStash .empty) where
  length_eq := List.length_replicate
  inBin b bin hb hne := by
    rw [List.eq_of_mem_replicate (List.mem_of_getElem? hb)] at hne
    exact absurd hne (by decide)
  candidate bin hbin := nomatch hbin
  once k := by
    rw [copies_replicate_empty, copies_replicate_empty]
    rfl

/-- **Every run keeps the invariant.** -/
theorem safe_run (hhash : 1 ≤ options.numHash ∧ options.numHash ≤ 5)
    (hbins : 0 < options.numBins) {batches : List (List Uint128)}
    (hmem : batches.flatten.length ≤ 2 ^ 56) :
    Safe (fun index => index.options = options ∧ index.hashes = batches.flatten ∧
      Placed options batches.flatten index.bins [] index.stash) (run options batches) := by
  have hnew : Safe (fun index => index = ⟨options, List.replicate options.numBins .empty,
      List.replicate options.numStash .empty, []⟩) (construct options) := by
    exact safe_enforce_bind fun _ => .ok rfl
  refine hnew.bind fun index hindex => ?_
  subst hindex
  refine (safe_foldlM (fun rest index => index.options = options ∧
    index.hashes ++ rest.flatten = batches.flatten ∧
    Placed options index.hashes index.bins [] index.stash) ?_
      ⟨rfl, rfl, placed_nil options⟩).mono ?_
  · rintro codes rest ⟨o, bins, stash, hashes⟩ ⟨heq, hflat, hplaced⟩
    subst heq
    rw [List.flatten_cons, ← List.append_assoc] at hflat
    refine (safe_insert hplaced hhash hbins ?_).mono ?_
    · rw [← hflat, List.length_append] at hmem
      exact (Nat.le_add_right _ _).trans hmem
    · rintro index ⟨hoptions, hhashes, hplaced⟩
      exact ⟨hoptions, by rw [hhashes, hflat], hplaced⟩
  · rintro index ⟨hoptions, hflat, hplaced⟩
    rw [List.flatten_nil, List.append_nil] at hflat
    exact ⟨hoptions, hflat, hflat ▸ hplaced⟩

end Invariant

/-! ### `SanityCheck` and `MinCollidingHashIdx` -/

theorem foldlM_collect {l : List Bin} {set : Finset ℕ} (hset : ∀ k ∈ set, copies k l = 0)
    (honce : ∀ k, copies k l ≤ 1) :
    ∃ set', l.foldlM collect set = .ok set' ∧ ∀ k, k ∈ set' ↔ k ∈ set ∨ copies k l = 1 := by
  induction l generalizing set with
  | nil => exact ⟨set, rfl, fun k => by simp [copies_nil]⟩
  | cons bin l ih =>
    simp only [copies_cons] at hset honce ⊢
    rw [List.foldlM_cons, collect]
    by_cases hempty : bin.isEmpty = true
    · simp only [Bin.holds_of_isEmpty hempty]
        at hset honce ⊢
      rw [if_pos hempty]
      exact ih hset honce
    · simp only [Bin.holds_eq (Bool.not_eq_true _ ▸ hempty), decide_eq_true_eq] at hset honce ⊢
      have hnew : bin.inputIdx ∉ set := fun hmem => by
        have := hset _ hmem
        rw [if_pos rfl] at this
        omega
      rw [if_neg hempty, enforce_of_pos hnew]
      have hset' : ∀ k ∈ Insert.insert bin.inputIdx set, copies k l = 0 := fun k hk => by
        rcases Finset.mem_insert.mp hk with rfl | hk
        · have := honce bin.inputIdx
          rw [if_pos rfl] at this
          omega
        · exact Nat.eq_zero_of_add_eq_zero_right (hset k hk)
      obtain ⟨set', hfold, hmem⟩ := ih hset' fun k => (Nat.le_add_right _ _).trans (honce k)
      refine ⟨set', hfold, fun k => ?_⟩
      have hk := honce k
      split_ifs at hk ⊢ with heq <;> grind

theorem foldlM_range_ok {condition : String} {msg : ℕ → String} (a n : ℕ) :
    (List.range' a n).foldlM (fun idx i => do
      enforce (idx = i) condition (msg i)
      pure (idx + 1)) a = (.ok (a + n) : Except Exception ℕ) := by
  induction n generalizing a with
  | zero => rfl
  | succ n ih =>
    rw [List.range'_succ, List.foldlM_cons, enforce_bind rfl, pure_bind, ih, Nat.add_right_comm,
      Nat.add_assoc]

section Checks

variable {index : Index} {hashes : List Uint128}
  (h : Placed index.options hashes index.bins [] index.stash)

include h

/-- **`SanityCheck`** passes if and only if all expected items have been inserted. -/
theorem sanityCheck_ok_iff :
    sanityCheck index = .ok () ↔ hashes.length = index.options.numInput := by
  have honce (k : ℕ) : copies k index.bins + copies k index.stash =
      if k < hashes.length then 1 else 0 := h.once k
  have hle (k : ℕ) : copies k index.bins + copies k index.stash ≤ 1 := by
    rw [honce]
    split <;> decide
  have hempty : ∀ k ∈ (∅ : Finset ℕ), copies k index.bins = 0 := by simp
  obtain ⟨set, hbins, hset⟩ := foldlM_collect hempty
    fun k => (Nat.le_add_right _ _).trans (hle k)
  have hdisjoint : ∀ k ∈ set, copies k index.stash = 0 := fun k hk => by
    have := hle k
    have := (hset k).mp hk
    simp only [Finset.notMem_empty, false_or] at this
    omega
  obtain ⟨set', hstash, hset'⟩ := foldlM_collect hdisjoint
    fun k => (Nat.le_add_left _ _).trans (hle k)
  have hrange : set' = Finset.range hashes.length := by
    ext k
    have := honce k
    rw [hset', hset, Finset.mem_range]
    simp only [Finset.notMem_empty, false_or]
    split_ifs at this <;> omega
  rw [sanityCheck, hbins, ok_bind, hstash, ok_bind, hrange, Finset.card_range, Finset.sort_range,
    List.range_eq_range']
  by_cases hn : hashes.length = index.options.numInput
  · rw [enforce_bind hn, foldlM_range_ok]
    exact iff_of_true rfl hn
  · rw [enforce_of_neg hn]
    exact iff_of_false (fun hok => nomatch hok) hn

end Checks

variable {options : Options}

/-- The loop of `MinCollidingHashIdx` finds the first hash function that gives the bin. -/
theorem minColliding_ok {code : Uint128} {b h : ℕ} (hbins : 0 < options.numBins)
    (hb : hashValue code h % options.numBins = b) {n i : ℕ} (hle : i ≤ h) (hlt : h < i + n)
    (hn : i + n ≤ 5) :
    ∃ m, minColliding options (.ok code) b n i = .ok m ∧ i ≤ m ∧ m < i + n ∧
      hashValue code m % options.numBins = b ∧
      ∀ j, i ≤ j → j < m → hashValue code j % options.numBins ≠ b := by
  induction n generalizing i with
  | zero => omega
  | succ n ih =>
    rw [minColliding, ok_bind, getHash_of_lt (by omega), ok_bind, definedIf_bind hbins.ne']
    by_cases hi : hashValue code i % options.numBins = b
    · rw [if_pos hi, Nat.mod_eq_of_lt (by omega)]
      exact ⟨i, rfl, le_rfl, by omega, hi, fun j hij hji => absurd hij (by omega)⟩
    · rw [if_neg hi]
      obtain ⟨m, hm, him, hmn, hmb, hleast⟩ := ih
        (Nat.lt_of_le_of_ne hle (by rintro rfl; exact hi hb)) (by omega) (by omega)
      refine ⟨m, hm, by omega, by omega, hmb, fun j hij hjm => ?_⟩
      obtain rfl | hij := hij.eq_or_lt
      · exact hi
      · exact hleast j hij hjm

theorem existsUnique_of_countP {α : Type} {p : α → Bool} {l : List α} (h : l.countP p = 1) :
    ∃! i : ℕ, ∃ a, l[i]? = some a ∧ p a = true := by
  induction l with
  | nil => nomatch h
  | cons a l ih =>
    rw [List.countP_cons] at h
    by_cases ha : p a = true
    · rw [if_pos ha] at h
      have hnone := List.countP_eq_zero.mp (Nat.succ.inj h)
      refine ⟨0, ⟨a, rfl, ha⟩, fun i hi => ?_⟩
      obtain ⟨b, hb, hpb⟩ := hi
      cases i with
      | zero => rfl
      | succ i => exact absurd hpb (hnone b (List.mem_of_getElem? hb))
    · rw [if_neg ha] at h
      obtain ⟨i, ⟨b, hb, hpb⟩, hunique⟩ := ih h
      refine ⟨i + 1, ⟨b, hb, hpb⟩, fun j hj => ?_⟩
      obtain ⟨c, hc, hpc⟩ := hj
      cases j with
      | zero => exact absurd (Option.some_inj.mp hc ▸ hpc) ha
      | succ j => rw [hunique j ⟨c, hc, hpc⟩]

/-! ### Runs -/

/-- **What an index is for**: it has the codes that were inserted so far, every item lies in one
place, which is a bin that one of its hash functions gives or a slot of the stash,
`MinCollidingHashIdx` finds the least of the hash functions that give the bin, and `SanityCheck`
passes exactly when all expected items are there. -/
structure Valid (options : Options) (codes : List Uint128) (index : Index) : Prop where
  hashes_eq : index.hashes = codes
  place : ∀ k < codes.length,
    ∃! p : ℕ, ∃ bin, (index.bins ++ index.stash)[p]? = some bin ∧ Bin.holds k bin = true
  inBin : ∀ b bin, index.bins[b]? = some bin → bin.isEmpty = false → InBin options codes b bin
  sanityCheck : sanityCheck index = .ok () ↔ codes.length = options.numInput
  minColliding : ∀ b bin, index.bins[b]? = some bin → bin.isEmpty = false →
    ∃ code h, codes[bin.inputIdx]? = some code ∧ minCollidingHashIdx index b = .ok h ∧
      h < options.numHash ∧ hashValue code h % options.numBins = b ∧
      ∀ j < h, hashValue code j % options.numBins ≠ b

theorem Placed.valid {index : Index} {codes : List Uint128} (hoptions : index.options = options)
    (hhashes : index.hashes = codes) (hhash : options.numHash ≤ 5) (hbins : 0 < options.numBins)
    (h : Placed options codes index.bins [] index.stash) : Valid options codes index where
  hashes_eq := hhashes
  place k hk := by
    refine existsUnique_of_countP ?_
    rw [List.countP_append]
    exact (h.once k).trans (if_pos hk)
  inBin := h.inBin
  sanityCheck := by
    subst hoptions
    exact sanityCheck_ok_iff h
  minColliding b bin hb hne := by
    obtain ⟨hlt, code, hcode, hvalue⟩ := h.inBin b bin hb hne
    obtain ⟨m, hm, -, hmn, hmb, hleast⟩ := minColliding_ok hbins hvalue (n := options.numHash)
      (Nat.zero_le _) (by omega) (by omega)
    refine ⟨code, m, hcode, ?_, by omega, hmb, fun j hj => hleast j (Nat.zero_le j) hj⟩
    rw [minCollidingHashIdx, vecGet_of_getElem? hb, ok_bind, hhashes, vecGet_of_getElem? hcode,
      hoptions, hm]

/-- **Every run** with this number of hash functions gives a valid index, or throws. The codes lie
in memory, where there is no room for more than `2 ^ 56` of them. -/
def Sound (numHash : ℕ) : Prop :=
  ∀ options : Options, options.numHash = numHash → 0 < options.numBins →
    ∀ batches : List (List Uint128), batches.flatten.length ≤ 2 ^ 56 →
      Safe (Valid options batches.flatten) (run options batches)

variable {numHash : ℕ}

theorem sound_of_le (hpos : 1 ≤ numHash) (hle : numHash ≤ 5) : Sound numHash := by
  rintro options rfl hbins batches hmem
  refine (safe_run ⟨hpos, hle⟩ hbins hmem).mono ?_
  rintro index ⟨hoptions, hhashes, hplaced⟩
  exact hplaced.valid hoptions hhashes hle hbins

/-- An index with one bin and one slot in the stash, for `numInput` items. -/
def oneBin (numInput numHash : ℕ) (h : numHash < 2 ^ 64) : Options :=
  ⟨numInput, 1, numHash, 1, 128, h⟩

theorem run_zero : run (oneBin 1 0 (by decide)) [[0]] =
    .ok ⟨oneBin 1 0 (by decide), [⟨0⟩], [.empty], [0]⟩ := by
  decide +kernel

theorem not_sound_zero : ¬Sound 0 := by
  intro h
  have hsafe := h (oneBin 1 0 (by decide)) rfl Nat.one_pos [[0]] (by simp)
  rw [run_zero] at hsafe
  exact absurd (hsafe.of_ok.inBin 0 ⟨0⟩ rfl (by decide)).1 (Nat.lt_irrefl 0)

/-- The numbers other than `0` to `5` that the constructor accepts. -/
def overflowing : List ℕ :=
  [2 ^ 63 - 3, 2 ^ 63 - 2, 2 ^ 63 - 1, 2 ^ 63, 2 ^ 63 + 1, 2 ^ 63 + 2, 2 ^ 63 + 3, 2 ^ 63 + 4,
    2 ^ 63 + 5, 2 ^ 64 - 3, 2 ^ 64 - 2, 2 ^ 64 - 1]

theorem mem_overflowing_of_accepted (h : options.Accepted) (hlt : 5 < options.numHash) :
    options.numHash ∈ overflowing := by
  have hlt' := options.numHash_lt
  rw [Options.Accepted] at h
  simp only [overflowing, List.mem_cons]
  omega

/-- Two items evict each other from the only bin, until their hash functions read past the code. -/
theorem run_overflowing (hmem : numHash ∈ overflowing) :
    ∃ h, run (oneBin 2 numHash h) [[0, 0]] = .error .undefinedBehaviour := by
  simp only [overflowing, List.mem_cons, List.not_mem_nil, or_false] at hmem
  rcases hmem with rfl | rfl | rfl | rfl | rfl | rfl | rfl | rfl | rfl | rfl | rfl | rfl <;>
    exact ⟨by decide, by decide +kernel⟩

theorem not_sound_of_mem_overflowing (hmem : numHash ∈ overflowing) : ¬Sound numHash := by
  intro h
  obtain ⟨hlt, hrun⟩ := run_overflowing hmem
  have hsafe := h (oneBin 2 numHash hlt) rfl Nat.one_pos [[0, 0]] (by simp)
  rw [hrun] at hsafe
  nomatch hsafe

/-- **The index is right** in every run for the numbers of hash functions from one to five, and for
no other number that the constructor accepts. -/
theorem sound_iff (numHash : ℕ) : Sound numHash ↔
    ∀ options : Options, options.numHash = numHash → options.Accepted →
      1 ≤ numHash ∧ numHash ≤ 5 := by
  constructor
  · rintro hsound options rfl haccepted
    refine ⟨Nat.one_le_iff_ne_zero.mpr fun hzero => ?_, ?_⟩
    · exact not_sound_zero (hzero ▸ hsound)
    · by_contra hgt
      exact not_sound_of_mem_overflowing (mem_overflowing_of_accepted haccepted (not_le.mp hgt))
        hsound
  · intro h options heq hbins batches hmem
    by_cases haccepted : options.Accepted
    · obtain ⟨hpos, hle⟩ := h options heq haccepted
      exact sound_of_le hpos hle options heq hbins batches hmem
    · rw [run, construct, enforce_of_neg haccepted]
      exact .error trivial

/-- Without hash functions the constructor succeeds, and the only item lies in a bin by the hash
function `0`, which is not among them. -/
theorem not_sound_without_hashes : (oneBin 1 0 (by decide)).Accepted ∧ ¬Sound 0 ∧
    (run (oneBin 1 0 (by decide)) [[0]] >>= fun index => minCollidingHashIdx index 0) =
      .ok 255 :=
  ⟨by decide, not_sound_zero, by decide +kernel⟩

end Yacl.Utils.CuckooIndex
