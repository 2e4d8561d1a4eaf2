import Yacl.Base.Method
import Yacl.Base.Span
import Yacl.Crypto.Sm4
import Yacl.Lib.Bytes

/-!
# The native SM4 generator

The model of `internal::Sm4Drbg` of `yacl/crypto/rand/drbg/native_factory.cc`. The object has a
working state, made of a key and a counter block, and next to it a cipher context that keeps the key
it was last initialised with.

`derive` compresses its input with a `CBC-MAC`. The string for the MAC is cut to `kSeedlen` bytes
after two lengths were put in front of the input, so of the input only the first `24` bytes are left
(`macMessages_eq_iff`).

`Generate` encrypts with the cipher context. `rng_update` initialises it with the key **from which**
it computes the new one, and a `ReSeed` that throws leaves a key that `derive` has made. So the
calls determine a key of the context that is in general not the working key
(`Reachable.cipherCtx_eq`), and a block of output comes from that key.
-/

open Bytes

namespace Yacl.Crypto

/-- The functions from other libraries. -/
structure Sm4Tools where
  /-- A block encrypted by a context of `SM4-ECB` that is initialised with the key. -/
  encrypt : (key block : Uint128) → Uint128
  /-- What `EVP_CipherUpdate` leaves in a block of zeros when it is given no place for the length of
  the output. -/
  updateNoLength : (key : Uint128) → (x : List Byte) → Uint128
  /-- `Blake3_128`. -/
  blake3_128 : List Byte → Uint128

/-- The functions of the library with the real cipher. Without a place for the length its
`EVP_CipherUpdate` refuses to work, so the block stays zero. -/
def Sm4Tools.openssl (blake3_128 : List Byte → Uint128) : Sm4Tools where
  encrypt := Sm4.encrypt
  updateNoLength _ _ := 0
  blake3_128 := blake3_128

/-- `Sm4Drbg`. -/
structure Sm4Drbg where
  /-- `cipher_ctx_`: the key that it is initialised with. -/
  cipherCtx : Option Uint128
  /-- `internal_state_.key`. -/
  key : Uint128
  /-- `internal_state_.v`. -/
  v : Uint128
  /-- `internal_state_.reseed_ctr`. -/
  reseedCtr : ℕ

namespace Sm4Drbg

/-- `kBlockSize`. -/
def kBlockSize : ℕ := 16

/-- `kKeySize`. -/
def kKeySize : ℕ := 16

/-- `kSeedlen`. -/
def kSeedlen : ℕ := 32

/-- `kMaxEntropySize`. -/
def kMaxEntropySize : ℕ := 2 ^ 32 - 1

/-- `internal_state_.reseed_interval_ctr`. -/
def reseedIntervalCtr : ℕ := 1 <<< 10

/-! ### Derivation -/

/-- The bytes of a `uint32_t`, most significant first. -/
def bigEndian32 (n : BitVec 32) : List Byte :=
  [n.extractLsb' 24 8, n.extractLsb' 16 8, n.extractLsb' 8 8, n.extractLsb' 0 8]

/-- The string `s` of `derive`. -/
def deriveString (buf : List Byte) : Except Exception (List Byte) := do
  enforce (buf.length ≤ 2 ^ 32 - 1) "buf.size() <= std::numeric_limits<uint32_t>::max()" ""
  let l := BitVec.ofNat 32 buf.length
  let n := BitVec.ofNat 32 kSeedlen
  let s := bigEndian32 l ++ bigEndian32 n ++ buf ++ [0x00]
  -- the mark is put behind an input of `kSeedlen` bytes, whatever the length of the input
  let s ← vecSet s (8 + kSeedlen) 0x80
  pure (vecResize s kSeedlen 0x00)

/-- The messages for the MAC, one for each counter. -/
def macMessages (buf : List Byte) : Except Exception (List (List Byte)) := do
  let s ← deriveString buf
  pure ((List.range ((kKeySize + kSeedlen) / kBlockSize)).map fun i =>
    bigEndian32 (BitVec.ofNat 32 i) ++ List.replicate (kSeedlen - 4) 0x00 ++ s)

variable {buf : List Byte}

/-- Behind a head of eight bytes, `24` bytes of the input are left after the cut. -/
theorem cut_eq {head : List Byte} (hhead : head.length = 8) (h : kSeedlen ≤ buf.length) :
    (do
      let s ← vecSet (head ++ buf ++ [0x00]) (8 + kSeedlen) 0x80
      pure (vecResize s kSeedlen 0x00)) = Except.ok (head ++ buf.take 24) := by
  have hseed : kSeedlen = 32 := rfl
  have hlen : (head ++ buf ++ [0x00]).length = 8 + buf.length + 1 := by
    rw [List.length_append, List.length_append, hhead, List.length_singleton]
  rw [vecSet_of_lt (by omega), ok_bind, vecResize_eq_take (by rw [List.length_set]; omega),
    List.take_set_of_le (by omega), List.append_assoc, List.take_append, hhead,
    List.take_append_of_le_length (by omega), List.take_of_length_le (by omega)]
  rfl

theorem deriveString_eq (h : kSeedlen ≤ buf.length) (hmax : buf.length ≤ 2 ^ 32 - 1) :
    deriveString buf = .ok (bigEndian32 (BitVec.ofNat 32 buf.length) ++
      bigEndian32 (BitVec.ofNat 32 kSeedlen) ++ buf.take 24) := by
  rw [deriveString, enforce_bind hmax]
  exact cut_eq rfl h

theorem macMessages_eq (h : kSeedlen ≤ buf.length) (hmax : buf.length ≤ 2 ^ 32 - 1) :
    macMessages buf = .ok ((List.range 3).map fun i =>
      bigEndian32 (BitVec.ofNat 32 i) ++ List.replicate (kSeedlen - 4) 0x00 ++
        (bigEndian32 (BitVec.ofNat 32 buf.length) ++ bigEndian32 (BitVec.ofNat 32 kSeedlen) ++
          buf.take 24)) := by
  rw [macMessages, deriveString_eq h hmax]
  rfl

variable (T : Sm4Tools)

/-- `cbc_mac`. -/
def cbcMac (key : Uint128) (data : List Byte) : Uint128 :=
  (List.range (data.length / kBlockSize)).foldl
    (fun chaining idx => T.encrypt key (wordAt 16 data idx ^^^ chaining)) 0

/-- The key of the MAC. -/
def macKey : Uint128 := makeUint128 0x0001020304050607 0x08090A0B0C0D0E0F

/-- The string `temp` of `derive`, made of the MACs. -/
def deriveTemp (messages : List (List Byte)) : List Byte :=
  messages.flatMap fun data => wordBytes 16 (cbcMac T macKey data)

/-- The key `k` of `derive`. -/
def derivedKey (messages : List (List Byte)) : Uint128 := wordAt 16 (deriveTemp T messages) 0

/-- The string `ret` of `derive`; its loop runs until there are `kSeedlen` bytes. -/
def derivedBytes (messages : List (List Byte)) : List Byte :=
  let x := ((deriveTemp T messages).drop kKeySize).take kSeedlen
  (List.range (kSeedlen / kBlockSize)).flatMap fun _ =>
    wordBytes 16 (T.updateNoLength (derivedKey T messages) x)

/-- `derive`, with `out_len = kSeedlen` as in all calls. -/
def derive (buf : List Byte) : Method Sm4Drbg (List Byte) := do
  let messages ← macMessages buf
  -- `cbc_mac` has reset the cipher context
  modify fun g => { g with cipherCtx := some (derivedKey T messages) }
  pure (derivedBytes T messages)

theorem derive_congr {x y : List Byte} (h : macMessages x = macMessages y) :
    derive T x = derive T y := by
  rw [derive, h, derive]

/-- **The messages for the MAC** of two inputs of `kSeedlen` bytes are the same exactly if the
inputs agree in their first `24` bytes, and then the same seed is derived from them. -/
theorem macMessages_eq_iff {x y : List Byte} (hx : x.length = kSeedlen) (hy : y.length = kSeedlen) :
    (∃ mx my, macMessages x = .ok mx ∧ macMessages y = .ok my ∧
      (mx = my ↔ x.take 24 = y.take 24)) ∧
    (x.take 24 = y.take 24 → derive T x = derive T y) := by
  have hmax : kSeedlen ≤ 2 ^ 32 - 1 := by decide
  have hmx := macMessages_eq hx.ge (hx.le.trans hmax)
  have hmy := macMessages_eq hy.ge (hy.le.trans hmax)
  rw [hx] at hmx
  rw [hy] at hmy
  refine ⟨⟨_, _, hmx, hmy, ?_, fun h => by rw [h]⟩, fun h => ?_⟩
  · intro h
    -- the messages begin with the counter and the lengths, which are the same
    have hfirst := List.map_inj_left.1 h 0 (by decide)
    exact List.append_cancel_left (List.append_cancel_left hfirst)
  · refine derive_congr T ?_
    rw [hmx, hmy, h]

/-- Zeros and ones have different messages. -/
theorem macMessages_zeros_ones :
    (∃ mx my, macMessages (List.replicate 32 0) = .ok mx ∧
      macMessages (List.replicate 32 1) = .ok my ∧
      (mx = my ↔ (List.replicate 32 (0 : Byte)).take 24 = (List.replicate 32 1).take 24)) ∧
    ((List.replicate 32 (0 : Byte)).take 24 = (List.replicate 32 1).take 24 →
      derive (.openssl fun _ => 0) (List.replicate 32 0) =
        derive (.openssl fun _ => 0) (List.replicate 32 1)) :=
  macMessages_eq_iff _ List.length_replicate List.length_replicate

/-- **Two inputs with the same messages**: they differ in the last byte. -/
theorem macMessages_lastByte :
    ∃ m, macMessages (List.replicate 32 0) = .ok m ∧
      macMessages (List.replicate 31 0 ++ [1]) = .ok m ∧
      List.replicate 32 (0 : Byte) ≠ List.replicate 31 0 ++ [1] :=
  ⟨_, macMessages_eq (by decide) (by decide), macMessages_eq (by decide) (by decide), by decide⟩

/-! ### Updates and output -/

/-- `rng_update` of the working state. -/
def rngUpdate (derivedBuf : List Byte) : Method Sm4Drbg Unit := do
  let g ← get
  modify fun g => { g with cipherCtx := some g.key }
  definedIf (kSeedlen ≤ derivedBuf.length)
  let temp (i : ℕ) := T.encrypt g.key (g.v + BitVec.ofNat 128 i) ^^^ wordAt 16 derivedBuf i
  modify fun g => { g with key := temp 0, v := temp 1 }

/-- The entropy with the hashes of the nonce and of the personal string added to its first bytes. -/
def maskEntropy (nonce personalString entropyBuf : List Byte) : List Byte :=
  let lhf := T.blake3_128 nonce
  let rhf := T.blake3_128 personalString
  wordBytes 16 (wordAt 16 entropyBuf 0 ^^^ lhf) ++ wordBytes 16 (wordAt 16 entropyBuf 1 ^^^ rhf) ++
    entropyBuf.drop kSeedlen

/-- `Instantiate`, with the result of `GetEntropy`. -/
def instantiate (nonce personalString entropyBuf : List Byte) : Method Sm4Drbg Unit := do
  enforce (entropyBuf.length ≤ kMaxEntropySize) "entropy_buf.size() <= kMaxEntropySize" ""
  modify fun g => { g with cipherCtx := none }
  definedIf (kSeedlen ≤ entropyBuf.length)
  let derivedBuf ← derive T (maskEntropy T nonce personalString entropyBuf)
  modify fun g => { g with key := 0, v := 0 }
  rngUpdate T derivedBuf
  modify fun g => { g with reseedCtr := 1 }

/-- `ReSeed`, with the result of `GetEntropy`. The additional input is copied to the place behind
the end of the buffer. -/
def reSeed (additionalInput buf : List Byte) : Method Sm4Drbg Unit := do
  enforce (buf.length ≤ kMaxEntropySize) "buf.size() <= kMaxEntropySize" ""
  definedIf (additionalInput.length = 0)
  let derivedBuf ← derive T buf
  enforceThat (buf.length = kSeedlen) "buf.size() == kSeedlen" buf.length kSeedlen
  rngUpdate T derivedBuf
  modify fun g => { g with reseedCtr := 1 }

/-- The first step of `Generate`: a new seed, if it is due. -/
def reSeedIfDue (additionalInput buf : List Byte) : Method Sm4Drbg Unit := do
  let g ← get
  if g.reseedCtr > reseedIntervalCtr then reSeed T additionalInput buf

/-- `EVP_CipherUpdate` of a block with `cipher_ctx_`. -/
def cipherUpdate (block : Uint128) : Method Sm4Drbg Uint128 := do
  let g ← get
  match g.cipherCtx with
  | none => throw (.enforceNotMet
      ("EVP_CipherUpdate(cipher_ctx_.get(), enc_out.data(), &out_len, " ++
        "(const unsigned char*)&internal_state_.v, sizeof(internal_state_.v))") "")
  | some key => pure (T.encrypt key block)

/-- The step of `Generate` that uses the additional input before the output. -/
def absorb (additionalInput : List Byte) : Method Sm4Drbg Unit :=
  if 0 < additionalInput.length then derive T additionalInput >>= rngUpdate T else pure ()

/-- `Generate`, with the result of `GetEntropy` for the case that a new seed is due. -/
def generate (len : ℕ) (additionalInput buf : List Byte) : Method Sm4Drbg (List Byte) := do
  enforce (len ≤ kBlockSize) "len <= kBlockSize" ""
  reSeedIfDue T additionalInput buf
  absorb T additionalInput
  modify fun g => { g with reseedCtr := g.reseedCtr + 1, v := g.v + 1 }
  let g ← get
  let encOut ← cipherUpdate T g.v
  rngUpdate T (if 0 < additionalInput.length then additionalInput else List.replicate kSeedlen 0)
  pure ((wordBytes 16 encOut).take len)

/-! ### The key of the cipher context -/

variable {T}

theorem call_derive {messages : List (List Byte)} (h : macMessages buf = .ok messages)
    (g : Sm4Drbg) :
    (derive T buf).call g =
      (.ok (derivedBytes T messages), { g with cipherCtx := some (derivedKey T messages) }) := by
  rw [derive, h]
  rfl

theorem call_derive_error {e : Exception} (h : macMessages buf = .error e) (g : Sm4Drbg) :
    (derive T buf).call g = (.error e, g) := by
  rw [derive, h]
  rfl

/-- **`rng_update`** leaves the key from which it has computed the new one in the cipher
context. -/
theorem call_rngUpdate {derivedBuf : List Byte} (h : kSeedlen ≤ derivedBuf.length) (g : Sm4Drbg) :
    (rngUpdate T derivedBuf).call g =
      (.ok (),
        { g with
          cipherCtx := some g.key
          key := T.encrypt g.key (g.v + 0) ^^^ wordAt 16 derivedBuf 0
          v := T.encrypt g.key (g.v + 1) ^^^ wordAt 16 derivedBuf 1 }) := by
  rw [rngUpdate, definedIf_of_pos h]
  rfl

/-- Whatever the outcome of `rng_update`, it has initialised the context with the key that it was
given. -/
theorem cipherCtx_rngUpdate (derivedBuf : List Byte) (g : Sm4Drbg) :
    ((rngUpdate T derivedBuf).call g).2.cipherCtx = some g.key := by
  by_cases h : kSeedlen ≤ derivedBuf.length
  · rw [call_rngUpdate h]
  · rw [rngUpdate, definedIf, if_neg h]
    rfl

variable (T) in
/-- The key that `ReSeed` leaves in the cipher context, if `c` was there before: the working key
that it has replaced, or, if the entropy has a length that `ReSeed` rejects after `derive`, the key
that `derive` has made. -/
def reSeedCtx (g : Sm4Drbg) (c : Uint128) (buf : List Byte) : Uint128 :=
  match macMessages buf with
  | .error _ => c
  | .ok messages => if buf.length = kSeedlen then g.key else derivedKey T messages

variable (T) in
/-- The key that `Generate` leaves in the cipher context: the working key of the call, or what a
`ReSeed` that was due and has thrown has left. -/
def generateCtx (g : Sm4Drbg) (c : Uint128) (len : ℕ) (buf : List Byte) : Uint128 :=
  if len ≤ kBlockSize then
    match (reSeedIfDue T [] buf).call g with
    | (.ok _, g₁) => g₁.key
    | (.error _, _) => reSeedCtx T g c buf
  else c

/-- **The objects** that an `Instantiate` and calls without additional input after it lead to,
whether they return or throw, and with each object the key that these calls leave in the cipher
context: first the key of zeros, from which `Instantiate` has computed the working key. -/
inductive Reachable (T : Sm4Tools) : Sm4Drbg → Uint128 → Prop
  | instantiate {nonce personalString entropyBuf : List Byte} {g g' : Sm4Drbg}
      (h : (instantiate T nonce personalString entropyBuf).call g = (.ok (), g')) : Reachable T g' 0
  | reSeed {g : Sm4Drbg} {c : Uint128} (h : Reachable T g c) (buf : List Byte) :
      Reachable T ((reSeed T [] buf).call g).2 (reSeedCtx T g c buf)
  | generate {g : Sm4Drbg} {c : Uint128} (h : Reachable T g c) (len : ℕ) (buf : List Byte) :
      Reachable T ((generate T len [] buf).call g).2 (generateCtx T g c len buf)

variable {g : Sm4Drbg}

theorem call_cipherUpdate {c : Uint128} (h : g.cipherCtx = some c) (block : Uint128) :
    (cipherUpdate T block).call g = (.ok (T.encrypt c block), g) := by
  rw [cipherUpdate, Method.call_bind_ok (Method.call_get g), h]
  rfl

theorem cipherCtx_instantiate {nonce personalString entropyBuf : List Byte} {g' : Sm4Drbg}
    (h : (instantiate T nonce personalString entropyBuf).call g = (.ok (), g')) :
    g'.cipherCtx = some 0 := by
  -- the last steps are an update of zeros and the reset of the counter
  obtain ⟨_, _, -, h⟩ := Method.of_call_bind_ok h
  obtain ⟨_, _, -, h⟩ := Method.of_call_bind_ok h
  obtain ⟨_, _, -, h⟩ := Method.of_call_bind_ok h
  obtain ⟨derivedBuf, g₁, -, h⟩ := Method.of_call_bind_ok h
  rw [Method.call_bind_ok (Method.call_modify _ g₁)] at h
  obtain ⟨_, g₂, hupdate, h⟩ := Method.of_call_bind_ok h
  have hctx := cipherCtx_rngUpdate (T := T) derivedBuf { g₁ with key := 0, v := 0 }
  rw [hupdate] at hctx
  injection h with _ h
  rw [← h]
  exact hctx

theorem call_reSeed {messages : List (List Byte)} (hmax : buf.length ≤ kMaxEntropySize)
    (hm : macMessages buf = .ok messages) (g : Sm4Drbg) :
    (reSeed T [] buf).call g =
      Method.call (do
          enforceThat (buf.length = kSeedlen) "buf.size() == kSeedlen" buf.length kSeedlen
          rngUpdate T (derivedBytes T messages)
          modify fun g => { g with reseedCtr := 1 })
        { g with cipherCtx := some (derivedKey T messages) } := by
  rw [reSeed, enforce_of_pos hmax, Method.call_bind_ok (Method.call_liftM _ g),
    definedIf_of_pos List.length_nil, Method.call_bind_ok (Method.call_liftM _ g),
    Method.call_bind_ok (call_derive hm g)]

/-- The reset of the counter, which ends `ReSeed`, leaves the context as it is. -/
theorem cipherCtx_resetCtr (x : Method Sm4Drbg Unit) (g : Sm4Drbg) :
    (Method.call (do x; modify fun g => { g with reseedCtr := 1 }) g).2.cipherCtx =
      (x.call g).2.cipherCtx := by
  rw [Method.call_bind]
  split <;> rename_i h <;> rw [h]
  rfl

theorem cipherCtx_reSeed {c : Uint128} (h : g.cipherCtx = some c) (buf : List Byte) :
    ((reSeed T [] buf).call g).2.cipherCtx = some (reSeedCtx T g c buf) := by
  by_cases hmax : buf.length ≤ kMaxEntropySize
  · cases hm : macMessages buf with
    | error e =>
      rw [reSeedCtx, hm, reSeed, enforce_of_pos hmax, Method.call_bind_ok (Method.call_liftM _ g),
        definedIf_of_pos List.length_nil, Method.call_bind_ok (Method.call_liftM _ g),
        Method.call_bind_error (call_derive_error hm g)]
      exact h
    | ok messages =>
      rw [call_reSeed hmax hm, reSeedCtx, hm]
      by_cases hlen : buf.length = kSeedlen
      · rw [enforceThat_of_pos hlen, Method.call_bind_ok (Method.call_liftM _ _),
          cipherCtx_resetCtr, cipherCtx_rngUpdate]
        simp only [if_pos hlen]
      · simp only [if_neg hlen]
        rw [enforceThat, enforce_of_neg hlen, Method.call_bind_error (Method.call_liftM _ _)]
  · have hm : ∃ e, macMessages buf = .error e := by
      rw [macMessages, deriveString, enforce_of_neg (show ¬buf.length ≤ 2 ^ 32 - 1 from hmax)]
      exact ⟨_, rfl⟩
    obtain ⟨e, hm⟩ := hm
    rw [reSeedCtx, hm, reSeed, enforce_of_neg hmax,
      Method.call_bind_error (Method.call_liftM _ g)]
    exact h

theorem cipherCtx_reSeedIfDue {c : Uint128} (h : g.cipherCtx = some c) (buf : List Byte) :
    ((reSeedIfDue T [] buf).call g).2.cipherCtx =
      some (if g.reseedCtr > reseedIntervalCtr then reSeedCtx T g c buf else c) := by
  rw [reSeedIfDue, Method.call_bind_ok (Method.call_get g)]
  split
  · exact cipherCtx_reSeed h buf
  · exact h

/-- **`Generate` without additional input** encrypts with the key of the cipher context, and leaves
the working key of the call there. -/
theorem call_generate {g₁ : Sm4Drbg} {len : ℕ} {c : Uint128} (hlen : len ≤ kBlockSize)
    (hdue : (reSeedIfDue T [] buf).call g = (.ok (), g₁)) (hctx : g₁.cipherCtx = some c) :
    ∃ g', (generate T len [] buf).call g =
        (.ok ((wordBytes 16 (T.encrypt c (g₁.v + 1))).take len), g') ∧
      g'.cipherCtx = some g₁.key := by
  have habsorb : (absorb T []).call g₁ = (.ok (), g₁) := rfl
  let g₂ : Sm4Drbg := { g₁ with reseedCtr := g₁.reseedCtr + 1, v := g₁.v + 1 }
  have houtput : (cipherUpdate T g₂.v).call g₂ = (.ok (T.encrypt c (g₁.v + 1)), g₂) :=
    call_cipherUpdate (g := g₂) hctx _
  have hupdate := call_rngUpdate (T := T) (List.length_replicate (a := (0 : Byte))).ge g₂
  rw [generate, enforce_of_pos hlen, Method.call_bind_ok (Method.call_liftM _ g),
    Method.call_bind_ok hdue, Method.call_bind_ok habsorb,
    Method.call_bind_ok (Method.call_modify _ g₁), Method.call_bind_ok (Method.call_get _),
    Method.call_bind_ok houtput]
  exact ⟨_, Method.call_bind_ok hupdate _, rfl⟩

theorem cipherCtx_generate {c : Uint128} (h : g.cipherCtx = some c) (len : ℕ) (buf : List Byte) :
    ((generate T len [] buf).call g).2.cipherCtx = some (generateCtx T g c len buf) := by
  rw [generateCtx]
  split
  · next hlen =>
    have hctx := cipherCtx_reSeedIfDue (T := T) h buf
    split
    · next hdue =>
      rw [hdue] at hctx
      obtain ⟨g', hcall, hkey⟩ := call_generate hlen hdue hctx
      rw [hcall]
      exact hkey
    · next hdue =>
      rw [generate, enforce_of_pos hlen, Method.call_bind_ok (Method.call_liftM _ g),
        Method.call_bind_error hdue]
      rw [hdue] at hctx
      -- only a `ReSeed` that is due can throw
      rwa [if_pos] at hctx
      by_contra hnot
      rw [reSeedIfDue, Method.call_bind_ok (Method.call_get g), if_neg hnot] at hdue
      nomatch hdue
  · next hlen =>
    rw [generate, enforce_of_neg hlen, Method.call_bind_error (Method.call_liftM _ g)]
    exact h

/-- **The key of the cipher context** is the one that the calls have left there. -/
theorem Reachable.cipherCtx_eq {c : Uint128} (h : Reachable T g c) : g.cipherCtx = some c := by
  induction h with
  | instantiate h => exact cipherCtx_instantiate h
  | reSeed _ buf ih => exact cipherCtx_reSeed ih buf
  | generate _ len buf ih => exact cipherCtx_generate ih len buf

/-- **The output of `Generate`**, from every reachable object and without additional input: if no
new seed is due and the calls have left the working key in the cipher context, then the output is
the encryption of `v + 1` with the working key. -/
theorem generate_eq_of_ctx_eq_key {c : Uint128} (hg : Reachable T g c) (hkey : c = g.key)
    (hdue : g.reseedCtr ≤ reseedIntervalCtr) {len : ℕ} (hlen : len ≤ kBlockSize)
    (buf : List Byte) :
    ∃ g', (generate T len [] buf).call g =
      (.ok ((wordBytes 16 (T.encrypt g.key (g.v + 1))).take len), g') := by
  have hnot : (reSeedIfDue T [] buf).call g = (.ok (), g) := by
    rw [reSeedIfDue, Method.call_bind_ok (Method.call_get g), if_neg (not_lt.mpr hdue)]
    rfl
  obtain ⟨g', hcall, -⟩ := call_generate hlen hnot (hg.cipherCtx_eq.trans (by rw [hkey]))
  exact ⟨g', hcall⟩

variable {entropyBuf : List Byte}

theorem length_maskEntropy (nonce personalString : List Byte) (h : kSeedlen ≤ entropyBuf.length) :
    (maskEntropy T nonce personalString entropyBuf).length = entropyBuf.length := by
  rw [maskEntropy, List.length_append, List.length_append, List.length_drop]
  exact Nat.add_sub_cancel' h

/-- **`Instantiate`** updates a working state of zeros. -/
theorem call_instantiate (nonce personalString : List Byte) (h : kSeedlen ≤ entropyBuf.length)
    (hmax : entropyBuf.length ≤ kMaxEntropySize) (g : Sm4Drbg) :
    ∃ messages, macMessages (maskEntropy T nonce personalString entropyBuf) = .ok messages ∧
      (instantiate T nonce personalString entropyBuf).call g =
        (.ok (), ⟨some 0, T.encrypt 0 (0 + 0) ^^^ wordAt 16 (derivedBytes T messages) 0,
          T.encrypt 0 (0 + 1) ^^^ wordAt 16 (derivedBytes T messages) 1, 1⟩) := by
  have hlen := length_maskEntropy (T := T) nonce personalString h
  have hmessages := macMessages_eq (hlen ▸ h) (hlen ▸ hmax)
  refine ⟨_, hmessages, ?_⟩
  rw [instantiate, enforce_of_pos hmax, definedIf_of_pos h,
    Method.call_bind_ok (Method.call_liftM _ g), Method.call_bind_ok (Method.call_modify _ g),
    Method.call_bind_ok (Method.call_liftM _ _), Method.call_bind_ok (call_derive hmessages _),
    Method.call_bind_ok (Method.call_modify _ _)]
  rfl

/-- **With the real cipher** `Instantiate` leads to the same object whatever the entropy is: there
`derive` returns zeros. -/
theorem call_instantiate_openssl (blake3_128 : List Byte → Uint128)
    (nonce personalString : List Byte) (h : kSeedlen ≤ entropyBuf.length)
    (hmax : entropyBuf.length ≤ kMaxEntropySize) (g : Sm4Drbg) :
    (instantiate (.openssl blake3_128) nonce personalString entropyBuf).call g =
      (.ok (), ⟨some 0, Sm4.encrypt 0 0, Sm4.encrypt 0 1, 1⟩) := by
  obtain ⟨messages, -, hcall⟩ := call_instantiate nonce personalString h hmax g
  have hbytes : derivedBytes (.openssl blake3_128) messages = encode 16 [0, 0] := rfl
  have hfirst : wordAt 16 (encode 16 [0, 0]) 0 = 0 := wordAt_encode rfl
  have hsecond : wordAt 16 (encode 16 [0, 0]) 1 = 0 := wordAt_encode rfl
  rw [hcall, hbytes, hfirst, hsecond]
  simp [Sm4Tools.openssl]

/-- The object after `Instantiate`, with the real cipher. -/
def instantiated : Sm4Drbg := ⟨some 0, Sm4.encrypt 0 0, Sm4.encrypt 0 1, 1⟩

theorem reachable_instantiated : Reachable (.openssl fun _ => 0) instantiated 0 :=
  .instantiate (call_instantiate_openssl (fun _ => 0) [] []
    (show kSeedlen ≤ (List.replicate 54 (0 : Byte)).length by decide) (by decide) instantiated)

/-- Entropy from which `derive` makes the working key that `Instantiate` has left. -/
def matchingEntropy : List Byte :=
  List.replicate 8 0 ++ wordBytes 16 0x9ddbeab84891f8f5dff4c88ae3ca7e89 ++ List.replicate 30 0

theorem reSeedCtx_matchingEntropy :
    reSeedCtx (.openssl fun _ => 0) instantiated 0 matchingEntropy = instantiated.key := by
  decide +kernel

/-- A `ReSeed` that throws leaves the working key in the cipher context. -/
theorem generate_matchingEntropy :
    Reachable (.openssl fun _ => 0)
        ((reSeed (.openssl fun _ => 0) [] matchingEntropy).call instantiated).2
        (reSeedCtx (.openssl fun _ => 0) instantiated 0 matchingEntropy) ∧
      ∃ g', (generate (.openssl fun _ => 0) 16 [] []).call
          ((reSeed (.openssl fun _ => 0) [] matchingEntropy).call instantiated).2 =
        (.ok ((wordBytes 16 (Sm4.encrypt (Sm4.encrypt 0 0) (Sm4.encrypt 0 1 + 1))).take 16), g') :=
  have h := reachable_instantiated.reSeed matchingEntropy
  ⟨h, generate_eq_of_ctx_eq_key h reSeedCtx_matchingEntropy (by decide) (le_refl 16) []⟩

/-- **The first block of output** is not the encryption of `v + 1` with the working key. -/
theorem generate_openssl :
    ∃ g c g' out, Reachable (.openssl fun _ => 0) g c ∧
      (generate (.openssl fun _ => 0) 16 [] []).call g = (.ok out, g') ∧
      (reSeedIfDue (.openssl fun _ => 0) [] []).call g = (.ok (), g) ∧
      out ≠ (wordBytes 16 (Sm4.encrypt g.key (g.v + 1))).take 16 := by
  have hdue : (reSeedIfDue (.openssl fun _ => 0) [] []).call instantiated =
      (.ok (), instantiated) := rfl
  obtain ⟨g', hcall, -⟩ := call_generate (le_refl 16) hdue rfl
  exact ⟨instantiated, 0, g', _, reachable_instantiated, hcall, hdue, by decide +kernel⟩

end Sm4Drbg

end Yacl.Crypto
