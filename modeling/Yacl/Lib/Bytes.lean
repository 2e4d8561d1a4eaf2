import Yacl.Lib.Bits

/-!
# Words in byte buffers

The memory image of a list of `n`-byte words, least significant byte first, and the words
that a byte buffer holds. `wordAt n buf i` is the `i`-th `n`-byte word of a buffer; it is
total, with zero bits past the end of the buffer. Reading a word back gives what was written
(`wordAt_encode`).
-/

open Bits

namespace Bytes

/-- A byte. -/
abbrev Byte := BitVec 8

/-- The `n` bytes of a word, least significant byte first. -/
def wordBytes (n : ℕ) (w : BitVec (8 * n)) : List Byte :=
  (List.range n).map fun j => w.extractLsb' (8 * j) 8

/-- The memory image of a list of words. -/
def encode (n : ℕ) (ws : List (BitVec (8 * n))) : List Byte := ws.flatMap (wordBytes n)

/-- The `i`-th word of a buffer. -/
def wordAt (n : ℕ) (buf : List Byte) (i : ℕ) : BitVec (8 * n) :=
  bitsOf (8 * n) fun j => (buf.getD (n * i + j / 8) 0).getLsbD (j % 8)

@[simp]
theorem length_wordBytes (n : ℕ) (w : BitVec (8 * n)) : (wordBytes n w).length = n := by
  rw [wordBytes, List.length_map, List.length_range]

@[simp]
theorem length_encode (n : ℕ) (ws : List (BitVec (8 * n))) :
    (encode n ws).length = ws.length * n := by
  simp [encode]

/-- Entry `j` of piece `i` of a list that is made of pieces of `n` entries. -/
theorem getElem?_flatMap_of_length {α β : Type*} {n : ℕ} {f : α → List β}
    (hf : ∀ a, (f a).length = n) {l : List α} {i j : ℕ} (hj : j < n) :
    (l.flatMap f)[n * i + j]? = l[i]?.bind fun a => (f a)[j]? := by
  induction l generalizing i with
  | nil => simp
  | cons a l ih =>
    rw [List.flatMap_cons]
    cases i with
    | zero =>
      rw [Nat.mul_zero, Nat.zero_add, List.getElem?_append_left (by rwa [hf])]
      rfl
    | succ i =>
      have hoff : n * (i + 1) + j - n = n * i + j := by rw [Nat.mul_succ]; omega
      rw [List.getElem?_append_right (by rw [hf, Nat.mul_succ]; omega), hf, hoff, ih,
        List.getElem?_cons_succ]

theorem getElem?_encode {n : ℕ} {ws : List (BitVec (8 * n))} {i j : ℕ} (hj : j < n) :
    (encode n ws)[n * i + j]? = ws[i]?.map fun w => w.extractLsb' (8 * j) 8 := by
  rw [encode, getElem?_flatMap_of_length (length_wordBytes n) hj]
  cases ws[i]? with
  | none => rfl
  | some w => simp [wordBytes, hj]

/-- **Round trip.** The words of a memory image are the words it was made from. -/
theorem wordAt_encode {n : ℕ} {ws : List (BitVec (8 * n))} {i : ℕ} {w : BitVec (8 * n)}
    (h : ws[i]? = some w) : wordAt n (encode n ws) i = w := by
  refine BitVec.eq_of_getLsbD_eq fun j hj => ?_
  have hbyte : j / 8 < n := Nat.div_lt_of_lt_mul hj
  rw [wordAt, getLsbD_bitsOf, decide_eq_true hj, Bool.true_and, List.getD_eq_getElem?_getD,
    getElem?_encode hbyte, h]
  simp only [Option.map_some, Option.getD_some, BitVec.getLsbD_extractLsb']
  rw [Nat.div_add_mod, decide_eq_true (Nat.mod_lt j (by omega)), Bool.true_and]

theorem wordBytes_injective (n : ℕ) : Function.Injective (wordBytes n) := by
  intro v w h
  have hencode : encode n [v] = encode n [w] := by
    rw [encode, encode, List.flatMap_singleton, List.flatMap_singleton, h]
  calc
    v = wordAt n (encode n [v]) 0 := (wordAt_encode rfl).symm
    _ = w := by rw [hencode, wordAt_encode rfl]

theorem wordAt_encode_range {n m i : ℕ} (a : ℕ → BitVec (8 * n)) (hi : i < m) :
    wordAt n (encode n ((List.range m).map a)) i = a i :=
  wordAt_encode (by simp [hi])

theorem wordAt_append {n i : ℕ} {a : List Byte} (h : n * (i + 1) ≤ a.length) (b : List Byte) :
    wordAt n (a ++ b) i = wordAt n a i := by
  refine bitsOf_congr fun j hj => ?_
  rw [Nat.mul_succ] at h
  rw [List.getD_eq_getElem?_getD, List.getElem?_append_left (by omega),
    ← List.getD_eq_getElem?_getD]

end Bytes
