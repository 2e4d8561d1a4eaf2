import Yacl.Base.Exception
import Yacl.Lib.Bytes

/-!
# Keys of messages

The keys and numbers that a channel puts on the wire, from `yacl/link/transport/channel.cc`. A
string is the list of its bytes. The key of a normal message on the wire is the key of the user, the
separator `kSeqKey`, and the sequence number in decimal digits.

A key of the user does not contain the separator, and the separator does not overlap itself, so the
first separator in the key on the wire is the one that was put there: `SplitChannelKey` gives back
the key and the number (`splitChannelKey_buildChannelKey`). No such key is that of an
acknowledgement or of the final message (`buildChannelKey_ne`).
-/

open Bytes

namespace Yacl.Link

/-- `std::string`. -/
abbrev Str := List Byte

/-- `kAckKey`: `ACK` and two control codes. -/
def kAckKey : Str := [0x41, 0x43, 0x4B, 0x01, 0x02]

/-- `kFinKey`: `FIN` and two control codes. -/
def kFinKey : Str := [0x46, 0x49, 0x4E, 0x01, 0x02]

/-- `kSeqKey`. -/
def kSeqKey : Str := [0x01, 0x02]

/-- `find`: the first position of a pattern in a string. -/
def find (pat : Str) : Str → Option ℕ
  | [] => if pat = [] then some 0 else none
  | b :: s => if pat = (b :: s).take pat.length then some 0 else (find pat s).map (· + 1)

/-- `NormalMessageKeyEnforce`. -/
def normalMessageKeyEnforce (k : Str) : Except Exception Unit := do
  enforce (k ≠ []) "!k.empty()" "do not use empty key"
  enforce (find kSeqKey k = none) "k.find(kSeqKey) == k.npos"
    "For developer: pls use another key for normal message."

/-! ### Numbers -/

/-- The character of a digit. -/
def digitChar (d : ℕ) : Byte := BitVec.ofNat 8 (0x30 + d)

/-- `std::to_string` for a `size_t`. -/
def toDecimal (n : ℕ) : Str :=
  if n = 0 then [digitChar 0] else ((Nat.digits 10 n).map digitChar).reverse

/-- `absl::ascii_isspace`. -/
def isSpace (b : Byte) : Bool := b = 0x20 || (0x09 ≤ b && b ≤ 0x0D)

/-- The spaces on both sides are removed. -/
def stripSpace (s : Str) : Str := ((s.dropWhile isSpace).reverse.dropWhile isSpace).reverse

/-- One more digit of a number, unless the character is no digit or the number is too large. -/
def parseDigit (value : ℕ) (b : Byte) : Option ℕ :=
  if 0x30 ≤ b.toNat ∧ b.toNat ≤ 0x39 then
    let value := value * 10 + (b.toNat - 0x30)
    if value < 2 ^ 64 then some value else none
  else none

/-- `absl::SimpleAtoi` for a `size_t`: spaces and a plus sign are skipped, and at least one
character is left. -/
def simpleAtoi (s : Str) : Option ℕ :=
  match stripSpace s with
  | [] => none
  | b :: rest =>
    if b = 0x2D then none
    else if b = 0x2B then if rest = [] then none else rest.foldlM parseDigit 0
    else (b :: rest).foldlM parseDigit 0

/-- `ViewToSizeT`. -/
def viewToSizeT (v : Str) : Except Exception ℕ :=
  match simpleAtoi v with
  | some ret => pure ret
  | none => throw (.enforceNotMet ("absl::SimpleAtoi( absl::string_view(" ++
      "reinterpret_cast<const char*>(v.data()), v.size()), &ret)") "")

/-! ### Keys -/

/-- `BuildChannelKey`. -/
def buildChannelKey (msgKey : Str) (seqId : ℕ) : Str := msgKey ++ kSeqKey ++ toDecimal seqId

/-- `SplitChannelKey`. -/
def splitChannelKey (key : Str) : Except Exception (Str × ℕ) :=
  match find kSeqKey key with
  | none => pure (key, 0)
  | some pos => do
    let seqId ← viewToSizeT (key.drop (pos + kSeqKey.length))
    pure (key.take pos, seqId)

/-! ### Numbers are read back -/

theorem toNat_digitChar {d : ℕ} (h : d < 10) : (digitChar d).toNat = 0x30 + d := by
  rw [digitChar, BitVec.toNat_ofNat]
  omega

theorem parseDigit_digitChar {value d : ℕ} (hd : d < 10) (h : value * 10 + d < 2 ^ 64) :
    parseDigit value (digitChar d) = some (value * 10 + d) := by
  rw [parseDigit, toNat_digitChar hd, if_pos (by omega), Nat.add_sub_cancel_left, if_pos h]

theorem foldlM_parseDigit {ds : List ℕ} (hds : ∀ d ∈ ds, d < 10)
    (h : Nat.ofDigits 10 ds < 2 ^ 64) :
    (ds.map digitChar).reverse.foldlM parseDigit 0 = some (Nat.ofDigits 10 ds) := by
  induction ds with
  | nil => rfl
  | cons d ds ih =>
    have hd : d < 10 := hds d List.mem_cons_self
    rw [Nat.ofDigits_cons] at h ⊢
    rw [List.map_cons, List.reverse_cons, List.foldlM_append,
      ih (fun d' hd' => hds d' (List.mem_cons_of_mem d hd')) (by omega)]
    have hstep : parseDigit (Nat.ofDigits 10 ds) (digitChar d) =
        some (Nat.ofDigits 10 ds * 10 + d) := parseDigit_digitChar hd (by omega)
    simp only [Option.bind_eq_bind, Option.bind_some, List.foldlM_cons, hstep]
    exact congrArg some (by omega)

theorem mem_toDecimal {n : ℕ} {b : Byte} (h : b ∈ toDecimal n) :
    0x30 ≤ b.toNat ∧ b.toNat ≤ 0x39 := by
  have hdigit : ∃ d < 10, b = digitChar d := by
    rw [toDecimal] at h
    split at h
    · exact ⟨0, by omega, List.mem_singleton.mp h⟩
    · obtain ⟨d, hd, rfl⟩ := List.mem_map.mp (List.mem_reverse.mp h)
      exact ⟨d, Nat.digits_lt_base (by omega) hd, rfl⟩
  obtain ⟨d, hd, rfl⟩ := hdigit
  rw [toNat_digitChar hd]
  omega

theorem toDecimal_ne_nil (n : ℕ) : toDecimal n ≠ [] := by
  rw [toDecimal]
  split
  · exact List.cons_ne_nil _ _
  · next h => simpa [Nat.digits_eq_nil_iff_eq_zero] using h

theorem ofDigits_toDecimal (n : ℕ) :
    Nat.ofDigits 10 ((toDecimal n).reverse.map fun b => b.toNat - 0x30) = n := by
  rw [toDecimal]
  split
  · next h0 => rw [h0]; rfl
  · rw [List.reverse_reverse, List.map_map, List.map_congr_left, List.map_id,
      Nat.ofDigits_digits]
    intro d hd
    rw [Function.comp_apply, toNat_digitChar (Nat.digits_lt_base (by omega) hd)]
    exact Nat.add_sub_cancel_left _ _

theorem toDecimal_injective : Function.Injective toDecimal := fun n m h => by
  rw [← ofDigits_toDecimal n, h, ofDigits_toDecimal m]

theorem isSpace_of_mem_toDecimal {n : ℕ} {b : Byte} (h : b ∈ toDecimal n) : isSpace b = false := by
  have hb := mem_toDecimal h
  have h20 : ¬b = 0x20 := by bv_omega
  have h0d : ¬b ≤ 0x0D := by bv_omega
  simp only [isSpace, h20, h0d, decide_false, Bool.and_false, Bool.or_false]

theorem dropWhile_of_forall {α : Type} {p : α → Bool} {l : List α} (h : ∀ a ∈ l, p a = false) :
    l.dropWhile p = l := by
  cases l with
  | nil => rfl
  | cons a l => rw [List.dropWhile_cons, h a List.mem_cons_self]; rfl

theorem stripSpace_toDecimal (n : ℕ) : stripSpace (toDecimal n) = toDecimal n := by
  have hspace : ∀ b ∈ toDecimal n, isSpace b = false := fun b hb => isSpace_of_mem_toDecimal hb
  rw [stripSpace, dropWhile_of_forall hspace,
    dropWhile_of_forall fun b hb => hspace b (List.mem_reverse.mp hb), List.reverse_reverse]

theorem foldlM_toDecimal {n : ℕ} (h : n < 2 ^ 64) : (toDecimal n).foldlM parseDigit 0 = some n := by
  rw [toDecimal]
  split
  · next h0 => rw [h0]; rfl
  · have hdigits : ((Nat.digits 10 n).map digitChar).reverse.foldlM parseDigit 0 = _ :=
      foldlM_parseDigit (fun d hd => Nat.digits_lt_base (by omega) hd)
        (by rwa [Nat.ofDigits_digits])
    rwa [Nat.ofDigits_digits] at hdigits

/-- **`ViewToSizeT`** reads a number back. -/
theorem viewToSizeT_toDecimal {n : ℕ} (h : n < 2 ^ 64) : viewToSizeT (toDecimal n) = .ok n := by
  have hfold := foldlM_toDecimal h
  obtain ⟨b, rest, hdec⟩ := List.exists_cons_of_ne_nil (toDecimal_ne_nil n)
  have hb := mem_toDecimal (n := n) (b := b) (by simp [hdec])
  have hatoi : simpleAtoi (toDecimal n) = some n := by
    rw [simpleAtoi, stripSpace_toDecimal]
    rw [hdec] at hfold ⊢
    dsimp only
    -- the first character is no sign
    rw [if_neg (by bv_omega), if_neg (by bv_omega), hfold]
  rw [viewToSizeT, hatoi]
  rfl

/-! ### Keys are split where they were joined -/

theorem find_kSeqKey_eq_none {k : Str} (h : (0x01 : Byte) ∉ k) : find kSeqKey k = none := by
  induction k with
  | nil => rfl
  | cons b k ih =>
    rw [List.mem_cons, not_or] at h
    obtain ⟨hb, hk⟩ := h
    rw [find, ih hk, if_neg]
    · rfl
    · intro heq
      exact hb (List.cons.inj heq).1

theorem find_eq_none {pat k : Str} (h : ¬pat <:+: k) : find pat k = none := by
  induction k with
  | nil =>
    rw [find, if_neg]
    intro hpat
    exact h (hpat ▸ List.infix_rfl)
  | cons b k ih =>
    rw [find, if_neg, ih fun hk => h (hk.trans (List.suffix_cons b k).isInfix)]
    · rfl
    · intro hpat
      exact h (List.prefix_iff_eq_take.mpr hpat).isInfix

theorem find_append_kSeqKey {k : Str} (h : find kSeqKey k = none) (rest : Str) :
    find kSeqKey (k ++ kSeqKey ++ rest) = some k.length := by
  induction k with
  | nil => rfl
  | cons b k ih =>
    rw [find] at h
    split at h
    · exact absurd h (by simp)
    · next hb =>
      rw [Option.map_eq_none_iff] at h
      rw [List.cons_append, List.cons_append, find, if_neg, ih h]
      · rfl
      · -- the separator neither starts inside of the string nor overlaps its end
        intro heq
        cases k with
        | nil => simp [kSeqKey] at heq
        | cons c k => exact hb heq

/-- **`SplitChannelKey`** gives back what `BuildChannelKey` joined. -/
theorem splitChannelKey_buildChannelKey {k : Str} (h : find kSeqKey k = none) {seqId : ℕ}
    (hseq : seqId < 2 ^ 64) : splitChannelKey (buildChannelKey k seqId) = .ok (k, seqId) := by
  have hdrop : (buildChannelKey k seqId).drop (k.length + kSeqKey.length) = toDecimal seqId := by
    rw [buildChannelKey, ← List.length_append, List.drop_left]
  have htake : (buildChannelKey k seqId).take k.length = k := by
    rw [buildChannelKey, List.append_assoc, List.take_left]
  rw [splitChannelKey, buildChannelKey, find_append_kSeqKey h, ← buildChannelKey]
  dsimp only
  rw [hdrop, htake, viewToSizeT_toDecimal hseq]
  rfl

theorem getLast?_buildChannelKey (k : Str) (seqId : ℕ) :
    ∃ b, (buildChannelKey k seqId).getLast? = some b ∧ 0x30 ≤ b.toNat := by
  obtain ⟨b, hb⟩ := Option.ne_none_iff_exists'.mp
    (mt List.getLast?_eq_none_iff.mp (toDecimal_ne_nil seqId))
  refine ⟨b, ?_, (mem_toDecimal (List.mem_of_getLast? hb)).1⟩
  rw [buildChannelKey, List.getLast?_append, hb]
  rfl

/-- No key with a number is that of an acknowledgement or of the final message. -/
theorem buildChannelKey_ne (k : Str) (seqId : ℕ) :
    ¬(buildChannelKey k seqId = kAckKey ∨ buildChannelKey k seqId = kFinKey) := by
  intro h
  obtain ⟨b, hb, hge⟩ := getLast?_buildChannelKey k seqId
  have h2 : (buildChannelKey k seqId).getLast? = some 0x02 := by
    rcases h with h | h <;> rw [h] <;> rfl
  rw [Option.some_inj.mp (hb.symm.trans h2)] at hge
  exact absurd hge (by decide)

theorem buildChannelKey_inj {k k' : Str} (h : find kSeqKey k = none) (h' : find kSeqKey k' = none)
    {i i' : ℕ} (hi : i < 2 ^ 64) (hi' : i' < 2 ^ 64)
    (heq : buildChannelKey k i = buildChannelKey k' i') : k = k' ∧ i = i' := by
  have hsplit := splitChannelKey_buildChannelKey h hi
  rw [heq, splitChannelKey_buildChannelKey h' hi'] at hsplit
  have hpair := Except.ok.inj hsplit
  exact ⟨(congrArg Prod.fst hpair).symm, (congrArg Prod.snd hpair).symm⟩

end Yacl.Link
