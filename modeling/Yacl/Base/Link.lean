import Yacl.Base.DynamicBitset
import Yacl.Lib.Bytes
import Yacl.Lib.TwoParty

/-!
# Two-party links

The code of one party of a two-party protocol is a `Party`: a process that exchanges byte buffers
with the other party. A `link::Context` of two parties matches the messages of the two parties by
their order; the tags of `SendAsync` and `Recv` only appear in traces and are left out.
-/

open Bytes

namespace Yacl

/-- The code of one party, with the exceptions of the library. -/
abbrev Party (α : Type) := TwoParty.Proc (List Byte) Exception α

theorem neverReturns_enforce {p : Prop} [Decidable p] {condition msg : String} (h : ¬p) :
    (liftM (enforce p condition msg) : Party Unit).NeverReturns := by
  rw [enforce_of_neg h]
  trivial

theorem bind_enforce {p : Prop} [Decidable p] {condition msg : String} (h : p) {α : Type}
    (f : Unit → Party α) : (liftM (enforce p condition msg) >>= f) = f () :=
  TwoParty.Proc.bind_of_ok (enforce_of_pos h condition msg) f

/-- `ctx->WorldSize()` of a two-party context. -/
def worldSize : ℕ := 2

theorem worldSize_eq : worldSize = 2 := rfl

/-- `ctx->SendAsync(ctx->NextRank(), buf, tag)`. -/
def sendAsync (buf : List Byte) : Party Unit := TwoParty.Proc.sendMsg buf

/-- `ctx->Recv(ctx->NextRank(), tag)`. -/
def recv : Party (List Byte) := TwoParty.Proc.recvMsg

/-- The bytes of an array of `n` blocks. -/
def blockBytes (n : ℕ) (a : ℕ → Uint128) : List Byte := encode 16 ((List.range n).map a)

/-- `std::memcpy` of a whole buffer into an array of `n` blocks: a longer buffer overflows the
array, and a shorter one leaves blocks without a value. -/
def memcpyBlocks (n : ℕ) (buf : List Byte) : Except Exception (ℕ → Uint128) :=
  if buf.length = 16 * n then pure fun k => wordAt 16 buf k else throw .undefinedBehaviour

/-- Block `k` of a buffer that is read as a span of blocks. -/
def bufBlock (buf : List Byte) (k : ℕ) : Except Exception Uint128 :=
  if k < buf.length / 16 then pure (wordAt 16 buf k) else throw .undefinedBehaviour

theorem length_blockBytes (n : ℕ) (a : ℕ → Uint128) : (blockBytes n a).length = 16 * n := by
  rw [blockBytes, length_encode, List.length_map, List.length_range, Nat.mul_comm]

theorem wordAt_blockBytes {n k : ℕ} (h : k < n) (a : ℕ → Uint128) :
    wordAt 16 (blockBytes n a) k = a k :=
  wordAt_encode_range (n := 16) a h

theorem memcpyBlocks_blockBytes (n : ℕ) (a : ℕ → Uint128) :
    ∃ b, memcpyBlocks n (blockBytes n a) = .ok b ∧ ∀ k < n, b k = a k := by
  refine ⟨fun k => wordAt 16 (blockBytes n a) k, ?_, fun k hk => wordAt_blockBytes hk a⟩
  rw [memcpyBlocks, if_pos (length_blockBytes n a)]
  rfl

theorem bufBlock_blockBytes {n k : ℕ} (h : k < n) (a : ℕ → Uint128) :
    bufBlock (blockBytes n a) k = .ok (a k) := by
  rw [bufBlock, if_pos (by rw [length_blockBytes]; omega), wordAt_blockBytes h]
  rfl

/-- `std::memcpy` of a whole buffer into an array of `n` zero blocks: a longer buffer overflows
the array, and a shorter one leaves zeros at its end. -/
def memcpyZeroed (n : ℕ) (buf : List Byte) : Except Exception (ℕ → Uint128) :=
  if buf.length ≤ 16 * n then pure fun k => wordAt 16 buf k else throw .undefinedBehaviour

theorem memcpyZeroed_blockBytes (n : ℕ) (a : ℕ → Uint128) :
    ∃ b, memcpyZeroed n (blockBytes n a) = .ok b ∧ ∀ k < n, b k = a k :=
  ⟨_, if_pos (length_blockBytes n a).le, fun _ hk => wordAt_blockBytes hk a⟩

/-- The `num_blocks() * sizeof(uint128_t)` bytes at `data()` of a bit set. -/
def bitsetBytes (b : DynamicBitset) : List Byte := encode 16 b.blocks

/-- The bits of a bit set of the given size after `std::memcpy` of its blocks from a buffer. -/
def memcpyBits (nbits : ℕ) (buf : List Byte) : Except Exception (ℕ → Bool) :=
  if 16 * blocksRequired nbits ≤ buf.length then
    pure fun i => (wordAt 16 buf (i / 128)).getLsbD (i % 128)
  else throw .undefinedBehaviour

theorem memcpyBits_bitsetBytes (b : DynamicBitset) :
    ∃ bits, memcpyBits b.size (bitsetBytes b) = .ok bits ∧ ∀ i < b.size, bits i = b.bit i := by
  have hlen : 16 * blocksRequired b.size ≤ (bitsetBytes b).length := by
    rw [bitsetBytes, length_encode, b.blocks_length, Nat.mul_comm]
  refine ⟨_, if_pos hlen, fun i hi => ?_⟩
  have hlt : i / 128 < b.blocks.length := b.blocks_length ▸ lt_blocksRequired hi
  rw [bitsetBytes, wordAt_encode (List.getElem?_eq_getElem hlt), DynamicBitset.bit, blockBit,
    List.getD_eq_getElem?_getD, List.getElem?_eq_getElem hlt, Option.getD_some]

/-- Copying the bytes of a bit set into the blocks of another one of its size. -/
theorem memcpyZeroed_bitsetBytes (b : DynamicBitset) :
    ∃ blocks, memcpyZeroed (blocksRequired b.size) (bitsetBytes b) = .ok blocks ∧
      ∀ i < b.size, (blocks (i / 128)).getLsbD (i % 128) = b.bit i := by
  have hlen : (bitsetBytes b).length ≤ 16 * blocksRequired b.size := by
    rw [bitsetBytes, length_encode, b.blocks_length, Nat.mul_comm]
  refine ⟨_, if_pos hlen, fun i hi => ?_⟩
  have hlt : i / 128 < b.blocks.length := b.blocks_length ▸ lt_blocksRequired hi
  rw [bitsetBytes, wordAt_encode (List.getElem?_eq_getElem hlt), DynamicBitset.bit, blockBit,
    List.getD_eq_getElem?_getD, List.getElem?_eq_getElem hlt, Option.getD_some]

theorem getLsbD_bitsetBytes (b : DynamicBitset) (i : ℕ) {j : ℕ} (hj : j < 8) :
    ((bitsetBytes b).getD i 0).getLsbD j = b.bit (8 * i + j) := by
  have hdiv : (8 * i + j) / 128 = i / 16 := by omega
  have hmod : (8 * i + j) % 128 = 8 * (i % 16) + j := by omega
  have hbyte : (encode 16 b.blocks)[i]? =
      b.blocks[i / 16]?.map fun v => v.extractLsb' (8 * (i % 16)) 8 := by
    have h : (encode 16 b.blocks)[16 * (i / 16) + i % 16]? =
        b.blocks[i / 16]?.map fun v => v.extractLsb' (8 * (i % 16)) 8 :=
      getElem?_encode (Nat.mod_lt i (by omega))
    rwa [Nat.div_add_mod] at h
  rw [bitsetBytes, List.getD_eq_getElem?_getD, hbyte, DynamicBitset.bit, blockBit, hdiv, hmod,
    List.getD_eq_getElem?_getD]
  rcases b.blocks[i / 16]? with _ | v
  · simp
  · simp [hj]

theorem wordAt_bitsetBytes (b : DynamicBitset) (n i : ℕ) :
    wordAt n (bitsetBytes b) i = Bits.bitsOf (8 * n) fun j => b.bit (i * (8 * n) + j) := by
  refine Bits.bitsOf_congr fun j _ => ?_
  rw [getLsbD_bitsetBytes b _ (Nat.mod_lt j (by omega))]
  congr 1
  have hmul : i * (8 * n) = 8 * (n * i) := by ring
  omega

end Yacl
