import Yacl.Crypto.Prg
import Yacl.Lib.Bytes

/-!
# Filling byte strings

The bytes of `FillPRand` (`yacl/crypto/tools/prg.cc`) in the block modes. The blocks of a length
that is a multiple of 16 are counted in 128 bits. The counter that is returned, and the block of the
last bytes of any other length, are counted in 64 bits. So the bytes are a part of one stream as
long as the counter does not wrap around.
-/

open Bits Bytes

namespace Yacl.Crypto

variable (encrypt : PrgMode → Uint128 → Uint128 → Uint128)

/-- The bytes that `FillPRand` writes. -/
def fillBytes (mode : PrgMode) (seed : Uint128) (count nbytes : ℕ) : List Byte :=
  (List.range nbytes).map (readElem 8 (fillPRand encrypt mode seed count nbytes).2)

/-- **A part of a stream.** The bytes of the length `a` are the first ones of the length `b`; the
counter that is returned is that of the next block; and the bytes that come after whole blocks are
those of a fill with this counter. -/
structure FillsStream (count a b : ℕ) : Prop where
  initial : ∀ encrypt mode seed,
    fillBytes encrypt mode seed count a <+: fillBytes encrypt mode seed count b
  counter : ∀ encrypt mode seed, (fillPRand encrypt mode seed count a).1 = count + (a + 15) / 16
  continued : 16 ∣ a → ∀ encrypt mode seed, fillBytes encrypt mode seed count a ++
    fillBytes encrypt mode seed (fillPRand encrypt mode seed count a).1 (b - a) =
      fillBytes encrypt mode seed count b

variable {encrypt}

theorem readElem_byte_congr {f g : ℕ → Uint128} {k l : ℕ} (h : f (k / 16) = g (l / 16))
    (hmod : k % 16 = l % 16) : readElem 8 f k = readElem 8 g l := by
  refine bitsOf_congr fun j hj => ?_
  rw [show (k * 8 + j) / 128 = k / 16 by omega, show (l * 8 + j) / 128 = l / 16 by omega]
  congr 1
  omega

/-- The counter of block `i` of a fill. -/
def blockCounter (count n i : ℕ) : ℕ :=
  if n % 16 ≠ 0 ∧ i = (n + 15) / 16 - 1 then (count + i) % 2 ^ 64 else count + i

theorem blockCounter_of_lt {count i : ℕ} (h : count + i < 2 ^ 64) (n : ℕ) :
    blockCounter count n i = count + i := by
  rw [blockCounter, Nat.mod_eq_of_lt h, ite_self]

theorem fillPRand_snd {mode : PrgMode} {seed : Uint128} {count n i : ℕ} (hcount : count < 2 ^ 64)
    (hi : i < (n + 15) / 16) : (fillPRand encrypt mode seed count n).2 i =
      encrypt mode seed (BitVec.ofNat 128 (blockCounter count n i)) := by
  simp only [fillPRand, Nat.mod_eq_of_lt hcount, blockCounter]
  split_ifs with h
  · rw [h.2, Nat.add_sub_assoc (by omega)]
  · rfl

theorem length_fillBytes (mode : PrgMode) (seed : Uint128) (count n : ℕ) :
    (fillBytes encrypt mode seed count n).length = n := by
  rw [fillBytes, List.length_map, List.length_range]

/-- **Two fills agree** on bytes whose counters do. -/
theorem getElem?_fillBytes_congr {mode : PrgMode} {seed : Uint128} {count count' n n' k k' : ℕ}
    (hcount : count < 2 ^ 64) (hcount' : count' < 2 ^ 64) (hk : k < n) (hk' : k' < n')
    (h : blockCounter count n (k / 16) = blockCounter count' n' (k' / 16))
    (hmod : k % 16 = k' % 16) : (fillBytes encrypt mode seed count n)[k]? =
      (fillBytes encrypt mode seed count' n')[k']? := by
  rw [fillBytes, fillBytes, List.getElem?_map, List.getElem?_map, List.getElem?_range hk,
    List.getElem?_range hk']
  refine congrArg some (readElem_byte_congr ?_ hmod)
  rw [fillPRand_snd hcount (by omega), fillPRand_snd hcount' (by omega), h]

/-- **`FillPRand` fills a part of a stream** exactly if the counter that it returns does not wrap
around. -/
theorem fillsStream_iff {count a b : ℕ} (hcount : count < 2 ^ 64) (hab : a ≤ b) :
    FillsStream count a b ↔ count + (a + 15) / 16 < 2 ^ 64 := by
  constructor
  · intro h
    rw [← h.counter (fun _ _ x => x) .kAesEcb 0]
    exact Nat.mod_lt _ (by decide)
  · intro h
    have hreturn : ∀ encrypt mode seed,
        (fillPRand encrypt mode seed count a).1 = count + (a + 15) / 16 := fun _ _ _ => by
      rw [fillPRand, Nat.mod_eq_of_lt hcount]
      exact Nat.mod_eq_of_lt h
    refine ⟨fun encrypt mode seed => ?_, hreturn, fun hdvd encrypt mode seed => ?_⟩
    · rw [List.prefix_iff_getElem?]
      intro k hk
      rw [length_fillBytes] at hk
      rw [← List.getElem?_eq_getElem]
      refine getElem?_fillBytes_congr hcount hcount (by omega) hk ?_ rfl
      rw [blockCounter_of_lt (by omega), blockCounter_of_lt (by omega)]
    · rw [hreturn]
      refine List.ext_getElem? fun k => ?_
      by_cases hk : k < a
      · rw [List.getElem?_append_left (by rwa [length_fillBytes])]
        refine getElem?_fillBytes_congr hcount hcount hk (by omega) ?_ rfl
        rw [blockCounter_of_lt (by omega), blockCounter_of_lt (by omega)]
      rw [List.getElem?_append_right (by rw [length_fillBytes]; omega), length_fillBytes]
      by_cases hkb : k < b
      · refine getElem?_fillBytes_congr h hcount (by omega) hkb ?_ (by omega)
        rw [blockCounter, show count + (a + 15) / 16 + (k - a) / 16 = count + k / 16 by omega]
        exact if_congr (by omega) rfl rfl
      · rw [List.getElem?_eq_none (by rw [length_fillBytes]; omega),
          List.getElem?_eq_none (by rw [length_fillBytes]; omega)]

/-- The first two blocks. -/
theorem fillsStream_start : FillsStream 0 16 20 ↔ 0 + (16 + 15) / 16 < 2 ^ 64 :=
  fillsStream_iff (by decide) (by decide)

/-- **The last counter**: the second block of 17 bytes has the counter zero, and that of 32 bytes
the counter `2 ^ 64`. -/
theorem not_fillsStream_last : ¬ FillsStream (2 ^ 64 - 1) 17 32 := by
  intro h
  have hinitial := h.initial (fun _ _ x => x >>> 64) .kAesEcb 0
  revert hinitial
  decide +kernel

end Yacl.Crypto
