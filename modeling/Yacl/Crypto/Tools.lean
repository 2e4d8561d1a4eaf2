import Yacl.Base.Link

/-!
# Cryptographic tools

`Tools` collects the external building blocks of the protocols: the pseudo-random generator
`PrgAesCtr`, the permutation `RP` behind the correlation robust hash, the block cipher, the hash
function `Blake3`, and the serialisation of `uint128_t` by `msgpack`. They are arbitrary functions,
except that a serialised number is read back. Over them are the correlation robust hash of
`yacl/crypto/tools/crhash.cc` and the functions of `yacl/crypto/tools/common.h`.
-/

open Bytes Loop TwoParty

namespace Yacl.Crypto

/-- The external functions that the protocols use. The results hold for any of them, so nothing
rests on their security. -/
structure Tools where
  /-- Entry `i` of the output of `PrgAesCtr` for a seed, when `n` entries of `w` bits are
  filled. -/
  prgAesCtr : (w : ℕ) → (seed : Uint128) → (n i : ℕ) → BitVec w
  /-- `RP::Gen` of the permutation of `GetCrHashDefaultRP`. -/
  rpGen : Uint128 → Uint128
  /-- Encryption of a block with the key schedule of `AES_set_encrypt_key`. -/
  aesEncrypt : (key : Uint128) → Uint128 → Uint128
  /-- `Blake3`; the `32` bytes of the hash as a word. -/
  blake3 : List Byte → BitVec (8 * 32)
  /-- `SerializeUint128`. -/
  serializeUint128 : Uint128 → List Byte
  /-- `DeserializeUint128`. -/
  deserializeUint128 : List Byte → Except Exception Uint128
  /-- Serialisation can be undone. -/
  deserialize_serialize : ∀ x, deserializeUint128 (serializeUint128 x) = .ok x

/-- Simple functions, with numbers serialised to their bytes. -/
instance : Inhabited Tools where
  default :=
    { prgAesCtr := fun w seed _ i => BitVec.ofNat w (seed.toNat + i)
      rpGen := fun x => x + 1
      aesEncrypt := fun key x => x + key
      blake3 := fun buf => BitVec.ofNat _ buf.length
      serializeUint128 := fun x => blockBytes 1 fun _ => x
      deserializeUint128 := fun buf => bufBlock buf 0
      deserialize_serialize := fun x => bufBlock_blockBytes (by omega) fun _ => x }

variable (T : Tools)

/-! ### The correlation robust hash -/

/-- `CrHash_128`. -/
def crHash128 (x : Uint128) : Uint128 := T.rpGen x ^^^ x

/-- One batch of `ParaCrHashInplace_128`: the entries from `offset` on are permuted into a
buffer, and added to themselves. -/
def crHashBatch (offset num : ℕ) (inout : List Uint128) : List Uint128 :=
  let tmp := ((inout.drop offset).take num).map T.rpGen
  inout.mapIdx fun i x =>
    if offset ≤ i ∧ i < offset + num then tmp.getD (i - offset) 0 ^^^ x else x

/-- `ParaCrHashInplace_128`, in batches of `kBatchSize = 1024`. -/
def paraCrHashInplace128 (inout : List Uint128) : List Uint128 :=
  let size := inout.length
  let inout := iterLoop (size / 1024) (fun t inout => crHashBatch T (1024 * t) 1024 inout) inout
  let offset := 1024 * (size / 1024)
  let remain := size - offset
  if remain > 0 then crHashBatch T offset remain inout else inout

theorem crHashBatch_eq (offset num : ℕ) (l : List Uint128) :
    crHashBatch T offset num l = mapPiece (crHash128 T) offset num l :=
  mapIdx_getD_eq_mapPiece (fun _ => rfl) offset num l 0

theorem iterLoop_mapPiece {f : Uint128 → Uint128} {batch : ℕ → List Uint128 → List Uint128}
    {size : ℕ} (h : ∀ offset l, batch offset l = mapPiece f offset size l) (n : ℕ)
    (l : List Uint128) :
    iterLoop n (fun t l => batch (size * t) l) l = mapPiece f 0 (size * n) l := by
  refine iterLoop_inv (fun t inout => inout = mapPiece f 0 (size * t) l)
    (by rw [Nat.mul_zero, mapPiece_zero]) ?_
  rintro t - _ rfl
  rw [h, mapPiece_append]
  rfl

/-- **`ParaCrHashInplace_128`** hashes every entry. -/
theorem paraCrHashInplace128_eq (l : List Uint128) :
    paraCrHashInplace128 T l = l.map (crHash128 T) := by
  rw [paraCrHashInplace128, iterLoop_mapPiece fun offset => crHashBatch_eq T offset 1024]
  split
  · rw [crHashBatch_eq, mapPiece_append, Nat.add_sub_cancel' (by omega), mapPiece_length]
  · rw [show 1024 * (l.length / 1024) = l.length by omega, mapPiece_length]

/-- `ParaCrHashInplace_128` on an array of `n` blocks. -/
def crHashArray (n : ℕ) (a : ℕ → Uint128) : ℕ → Uint128 :=
  let out := paraCrHashInplace128 T ((List.range n).map a)
  fun k => out.getD k 0

theorem crHashArray_eq {n k : ℕ} (h : k < n) (a : ℕ → Uint128) :
    crHashArray T n a k = crHash128 T (a k) := by
  rw [crHashArray, paraCrHashInplace128_eq]
  simp [List.getElem?_range h]

/-! ### Agreeing on a seed -/

/-- `SyncSeedSend`, with the result of `SecureRandSeed`. -/
def syncSeedSend (seed : Uint128) : Party Uint128 := do
  sendAsync (T.serializeUint128 seed)
  pure seed

/-- `SyncSeedRecv`. -/
def syncSeedRecv : Party Uint128 := do
  let buf ← recv
  T.deserializeUint128 buf

theorem syncSeed_session (seed : Uint128) :
    Session False (syncSeedSend T seed) (syncSeedRecv T) fun a b => a = seed ∧ b = seed := by
  refine .send_recv ?_
  rw [T.deserialize_serialize]
  exact .ret ⟨rfl, rfl⟩

theorem syncSeed_session_right (seed : Uint128) :
    Session False (syncSeedRecv T) (syncSeedSend T seed) fun a b => a = seed ∧ b = seed := by
  refine .recv_send ?_
  rw [T.deserialize_serialize]
  exact .ret ⟨rfl, rfl⟩

end Yacl.Crypto
