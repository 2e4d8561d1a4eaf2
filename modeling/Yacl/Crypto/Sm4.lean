import Yacl.Base.Int128

/-!
# The block cipher SM4

`SM4-ECB` comes from a library. It is given here on `uint128_t`, by the memory images of the key and
of the block: the cipher reads them as four big-endian words.
-/

namespace Yacl.Crypto

/-- The number whose bytes are those of `w` in the opposite order. -/
def reverseBytes (w : Uint128) : Uint128 :=
  (List.range 16).foldl (fun acc j => acc <<< 8 ||| (w.extractLsb' (8 * j) 8).setWidth 128) 0

namespace Sm4

/-- The rows of the substitution box. -/
def sboxRows : List Uint128 :=
  [0xd690e9fecce13db716b614c228fb2c05, 0x2b679a762abe04c3aa44132649860699,
   0x9c4250f491ef987a33540b43edcfac62, 0xe4b31ca9c908e89580df94fa758f3fa6,
   0x4707a7fcf37317ba83593c19e6854fa8, 0x686b81b27164da8bf8eb0f4b70569d35,
   0x1e240e5e6358d1a225227c3b01217887, 0xd40046579fd327524c3602e7a0c4c89e,
   0xeabf8ad240c738b5a3f7f2cef96115a1, 0xe0ae5da49b341a55ad933230f58cb1e3,
   0x1df6e22e8266ca60c02923ab0d534e6f, 0xd5db3745defd8e2f03ff6a726d6c5b51,
   0x8d1baf92bbddbc7f11d95c411f105ad8, 0x0ac13188a5cd7bbd2d74d012b8e5b4b0,
   0x8969974a0c96777e65b9f109c56ec684, 0x18f07dec3adc4d2079ee5f3ed7cb3948]

/-- The substitution box. -/
def sbox (x : BitVec 8) : BitVec 8 :=
  (sboxRows.getD (x.toNat / 16) 0).extractLsb' (8 * (15 - x.toNat % 16)) 8

/-- The substitution of the bytes of a word. -/
def tau (x : BitVec 32) : BitVec 32 :=
  sbox (x.extractLsb' 24 8) ++ sbox (x.extractLsb' 16 8) ++ sbox (x.extractLsb' 8 8) ++
    sbox (x.extractLsb' 0 8)

/-- The mixing of a round. -/
def mix (x : BitVec 32) : BitVec 32 :=
  let b := tau x
  b ^^^ b.rotateLeft 2 ^^^ b.rotateLeft 10 ^^^ b.rotateLeft 18 ^^^ b.rotateLeft 24

/-- The mixing of the key schedule. -/
def mixKey (x : BitVec 32) : BitVec 32 :=
  let b := tau x
  b ^^^ b.rotateLeft 13 ^^^ b.rotateLeft 23

/-- The system parameter that is added to the key. -/
def systemParameter : Uint128 := 0xa3b1bac656aa3350677d9197b27022dc

/-- The constant of a round. -/
def roundConstant (i : ℕ) : BitVec 32 :=
  (List.range 4).foldl (fun acc j => acc <<< 8 ||| BitVec.ofNat 32 ((4 * i + j) * 7 % 256)) 0

/-- The words of the key schedule and of the block. -/
structure Round where
  /-- The last four words of the key schedule. -/
  key : BitVec 32 × BitVec 32 × BitVec 32 × BitVec 32
  /-- The last four words of the block. -/
  block : BitVec 32 × BitVec 32 × BitVec 32 × BitVec 32

/-- Four big-endian words. -/
def words (w : Uint128) : BitVec 32 × BitVec 32 × BitVec 32 × BitVec 32 :=
  (w.extractLsb' 96 32, w.extractLsb' 64 32, w.extractLsb' 32 32, w.extractLsb' 0 32)

/-- A round. -/
def Round.next (r : Round) (i : ℕ) : Round :=
  let (k0, k1, k2, k3) := r.key
  let (x0, x1, x2, x3) := r.block
  let rk := k0 ^^^ mixKey (k1 ^^^ k2 ^^^ k3 ^^^ roundConstant i)
  { key := (k1, k2, k3, rk)
    block := (x1, x2, x3, x0 ^^^ mix (x1 ^^^ x2 ^^^ x3 ^^^ rk)) }

/-- Encryption of a big-endian block. -/
def encryptBigEndian (key block : Uint128) : Uint128 :=
  let r := (List.range 32).foldl Round.next ⟨words (key ^^^ systemParameter), words block⟩
  let (x0, x1, x2, x3) := r.block
  x3 ++ x2 ++ x1 ++ x0

/-- Encryption of a block in memory. -/
def encrypt (key block : Uint128) : Uint128 :=
  reverseBytes (encryptBigEndian (reverseBytes key) (reverseBytes block))

/-- The example of the standard. -/
example :
    encryptBigEndian 0x0123456789abcdeffedcba9876543210 0x0123456789abcdeffedcba9876543210 =
      0x681edf34d206965e86b3e94f536e4246 := by
  decide +kernel

end Sm4

end Yacl.Crypto
