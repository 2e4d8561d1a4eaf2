import Yacl.Base.Method
import Yacl.Crypto.EcGroup

/-!
# Oblivious pseudo-random functions

The model of `OprfClient`, `OprfServer` (`yacl/crypto/oprf/oprf.h`) and of `OprfCtx::DeriveKeyPair`
(`yacl/crypto/oprf/oprf_ctx.cc`).

The client keeps the inverse of its blind, and `RefreshBlind` does not forget it. So a `Finalize`
removes the blind that the **first** `Finalize` has seen, which is the blind of the last `Blind`
only if it has not been replaced (`finalize_point_iff`).

Strings are copied into the buffers for the hash with `snprintf`, which stops at a zero byte, and
which writes a zero byte in the place of the last character. So the hashed bytes determine the
string only if it is empty (`hashed_input_iff`).

The loop of `DeriveKeyPair` counts its rounds in a byte, and hashes the same bytes in each of them.
So it ends after one round or never (`deriveLoop_zero`).
-/

open Bytes Yacl.Math

namespace Yacl.Crypto

/-- `OprfCtx`, over points of the type `P`. -/
structure OprfCtx (P : Type) [AddCommGroup P] where
  /-- `ec_`. -/
  ec : EcGroup P
  /-- `HashToCurve` of the group. -/
  hashToCurve : List Byte → P
  /-- `SslHash` with the algorithm `hash_`. -/
  hash : List Byte → List Byte
  /-- `ctx_str_`. -/
  ctxStr : List Byte

/-- The characters of a string literal. -/
def literal (s : String) : List Byte := s.toList.map fun c => BitVec.ofNat 8 c.toNat

/-- The two bytes of a length. -/
def lengthBytes (n : ℕ) : List Byte := wordBytes 2 (BitVec.ofNat 16 n)

/-- What `snprintf(p, s.size(), "%s", s.data())` leaves in the `s.size()` bytes from `p` on, where
`mem` was before: the characters of `s` except for the last one, up to the first zero byte, and a
zero byte. -/
def snprintfArea (mem : ℕ → Byte) (s : List Byte) : List Byte :=
  let text := s.dropLast.takeWhile (· ≠ 0)
  (List.range s.length).map fun i =>
    if i < text.length then text.getD i 0 else if i = text.length then 0 else mem i

@[simp]
theorem length_lengthBytes (n : ℕ) : (lengthBytes n).length = 2 := length_wordBytes _ _

theorem mod_eq_of_lengthBytes {m n : ℕ} (h : lengthBytes m = lengthBytes n) :
    m % 2 ^ 16 = n % 2 ^ 16 := by
  have hword := congrArg BitVec.toNat (wordBytes_injective 2 h)
  rwa [BitVec.toNat_ofNat, BitVec.toNat_ofNat] at hword

@[simp]
theorem length_snprintfArea (mem : ℕ → Byte) (s : List Byte) :
    (snprintfArea mem s).length = s.length := by
  rw [snprintfArea, List.length_map, List.length_range]

/-- **The last character** of a string is not copied. -/
theorem snprintfArea_concat (mem : ℕ → Byte) (s : List Byte) (b b' : Byte) :
    snprintfArea mem (s ++ [b]) = snprintfArea mem (s ++ [b']) := by
  rw [snprintfArea, snprintfArea, List.dropLast_concat, List.dropLast_concat, List.length_append,
    List.length_append]
  rfl

/-- Every string that is not empty has another one that is copied in the same way. -/
theorem exists_snprintfArea_eq {s : List Byte} (h : s ≠ []) :
    ∃ s', s' ≠ s ∧ s'.length = s.length ∧ ∀ mem, snprintfArea mem s = snprintfArea mem s' := by
  obtain ⟨l, b, rfl⟩ := (List.eq_nil_or_concat' s).resolve_left h
  refine ⟨l ++ [b + 1], ?_, by simp, fun mem => snprintfArea_concat mem l b (b + 1)⟩
  simp

namespace OprfCtx

variable {P : Type} [AddCommGroup P] (ctx : OprfCtx P)

/-- The buffer `derive_input` of `DeriveKeyPair`, which is allocated with the contents `mem`. -/
def deriveInput (mem : ℕ → Byte) (seed : BitVec (8 * 16)) (info : List Byte) : List Byte :=
  wordBytes 16 seed ++ lengthBytes info.length ++ snprintfArea (fun i => mem (18 + i)) info ++
    [0] ++ literal "DeriveKeyPair" ++ ctx.ctxStr

/-- `DeriveKeyPair`. The counter in the buffer is never changed, so the loop either ends in its
first round or not at all. -/
def deriveKeyPair (mem : ℕ → Byte) (seed : BitVec (8 * 16)) (info : List Byte) :
    Except Exception (MPInt × P) := do
  enforce (info.length < 1 <<< 16) "info.size() < (1 << 16)" ""
  let sk := fromMagBytes (ctx.hash (ctx.deriveInput mem seed info)) % ctx.ec.order
  if sk = 0 then throw .nonTermination else pure (sk, ctx.ec.mulBase sk)

end OprfCtx

/-- `OprfServer::BlindEvaluate`, with the key `blind`. -/
def OprfServer.blindEvaluate {P : Type} [AddCommGroup P] (ctx : OprfCtx P) (blind : MPInt)
    (point : P) : P :=
  ctx.ec.mul point blind

/-- `OprfClient`: the blind, and the inverse that `Finalize` has cached, or zero. -/
structure OprfClient where
  /-- `blind_`. -/
  blind : MPInt
  /-- `blind_inv_`. -/
  blindInv : MPInt
deriving DecidableEq

namespace OprfClient

variable {P : Type} [AddCommGroup P] (ctx : OprfCtx P)

/-- The client after its construction, with the result of `RandomLtN`. -/
def make (b : MPInt) : OprfClient := ⟨b, 0⟩

/-- `RefreshBlind`, with the result of `RandomLtN`. -/
def refreshBlind (c : OprfClient) (b : MPInt) : OprfClient := { c with blind := b }

/-- `ClearBlind`. -/
def clearBlind (_ : OprfClient) : OprfClient := ⟨0, 0⟩

/-- `Blind`. -/
def blindInput (c : OprfClient) (input : List Byte) : P :=
  ctx.ec.mul (ctx.hashToCurve input) c.blind

/-- The first step of `Finalize`: the inverse of the blind is computed if there is none. -/
def cacheInverse : Method OprfClient Unit := do
  let c ← get
  if c.blindInv = 0 then do
    let inv ← invertMod c.blind ctx.ec.order
    modify fun c => { c with blindInv := inv }
  else pure ()

/-- The buffer `hash_buf` of `Finalize`, which is allocated with the contents `mem`. -/
def finalizeInput (mem : ℕ → Byte) (privateInput pointBuf : List Byte) : List Byte :=
  lengthBytes privateInput.length ++ snprintfArea (fun i => mem (2 + i)) privateInput ++
    lengthBytes pointBuf.length ++ pointBuf ++
    snprintfArea (fun i => mem (2 + privateInput.length + 2 + pointBuf.length + i))
      (literal "Finalize")

/-- The part of `Finalize` that does not change the object: the bytes that are hashed. -/
def hashBuf (c : OprfClient) (mem : ℕ → Byte) (point : P) (privateInput : List Byte) :
    Except Exception (List Byte) := do
  let pointBuf := ctx.ec.serializePoint (ctx.ec.mul point c.blindInv)
  enforce (privateInput.length ≤ 1 <<< 16) "private_input.size() <= (1 << 16)" ""
  enforce (pointBuf.length ≤ 1 <<< 16) "point_buf.size() <= (1 << 16)" ""
  pure (finalizeInput mem privateInput pointBuf)

/-- `Finalize` up to the hash. -/
def finalizeBuffer (mem : ℕ → Byte) (point : P) (privateInput : List Byte) :
    Method OprfClient (List Byte) := do
  cacheInverse ctx
  let c ← get
  c.hashBuf ctx mem point privateInput

/-- `Finalize`. -/
def finalize (mem : ℕ → Byte) (point : P) (privateInput : List Byte) :
    Method OprfClient (List Byte) := do
  let hashBuf ← finalizeBuffer ctx mem point privateInput
  pure (ctx.hash hashBuf)

/-! ### Histories of a client -/

/-- **The histories of a client** with the key `key` on the server: the object, the blind at the
first `Finalize` since the construction or since the last `ClearBlind`, and the input of the last
`Blind` with the point that the server has made of it. A new blind discards this point. All blinds
are results of `RandomLtN` other than zero. -/
inductive Rounds (key : MPInt) : OprfClient → Option MPInt → Option (List Byte × P) → Prop
  | make {b : MPInt} (hb : 0 < b ∧ b < ctx.ec.order) : Rounds key (make b) none none
  | refreshBlind {c : OprfClient} {first : Option MPInt} {pending : Option (List Byte × P)}
      (h : Rounds key c first pending) {b : MPInt} (hb : 0 < b ∧ b < ctx.ec.order) :
      Rounds key (c.refreshBlind b) first none
  | clearBlind {c : OprfClient} {first : Option MPInt} {pending : Option (List Byte × P)}
      (h : Rounds key c first pending) {b : MPInt} (hb : 0 < b ∧ b < ctx.ec.order) :
      Rounds key (c.clearBlind.refreshBlind b) none none
  | blind {c : OprfClient} {first : Option MPInt} {pending : Option (List Byte × P)}
      (h : Rounds key c first pending) (input : List Byte) :
      Rounds key c first
        (some (input, OprfServer.blindEvaluate ctx key (c.blindInput ctx input)))
  | finalize {c : OprfClient} {first : Option MPInt} {input : List Byte} {point : P}
      (h : Rounds key c first (some (input, point))) (mem : ℕ → Byte) (privateInput : List Byte) :
      Rounds key ((finalize ctx mem point privateInput).call c).2
        (some (first.getD c.blind)) (some (input, point))

variable {ctx}

/-- The first `Finalize` leaves the inverse of its blind in the object. -/
def Cached (ctx : OprfCtx P) (c : OprfClient) : Option MPInt → Prop
  | none => c.blindInv = 0
  | some b => (0 < b ∧ b < ctx.ec.order) ∧ c.blindInv ≠ 0 ∧
      (c.blindInv : ZMod ctx.ec.order) = (b : ZMod ctx.ec.order)⁻¹

theorem cast_ne_zero {b : MPInt} (hb : 0 < b ∧ b < ctx.ec.order) : (b : ZMod ctx.ec.order) ≠ 0 := by
  intro h
  rw [ZMod.intCast_zmod_eq_zero_iff_dvd] at h
  exact absurd (Int.le_of_dvd hb.1 h) (not_le.2 hb.2)

theorem cast_inj {a b : MPInt} (ha : 0 < a ∧ a < ctx.ec.order) (hb : 0 < b ∧ b < ctx.ec.order) :
    (a : ZMod ctx.ec.order) = b ↔ a = b := by
  rw [ZMod.intCast_eq_intCast_iff, Int.ModEq, Int.emod_eq_of_lt ha.1.le ha.2,
    Int.emod_eq_of_lt hb.1.le hb.2]

variable {c : OprfClient}

/-- **The cached inverse.** After the first step of `Finalize` the object holds the inverse of the
blind that the first `Finalize` has seen. -/
theorem Cached.cacheInverse {first : Option MPInt} (hblind : 0 < c.blind ∧ c.blind < ctx.ec.order)
    (h : Cached ctx c first) :
    ∃ c', (cacheInverse ctx).call c = (.ok (), c') ∧ c'.blind = c.blind ∧
      Cached ctx c' (some (first.getD c.blind)) := by
  cases first with
  | none =>
    obtain ⟨inv, hinv, hcast⟩ := invertMod_eq (cast_ne_zero hblind)
    have hzero : c.blindInv = 0 := h
    refine ⟨{ c with blindInv := inv }, ?_, rfl, hblind, ?_, hcast⟩
    · rw [OprfClient.cacheInverse, Method.call_bind_ok (Method.call_get c), if_pos hzero, hinv]
      rfl
    · rintro rfl
      rw [Int.cast_zero] at hcast
      exact inv_ne_zero (cast_ne_zero hblind) hcast.symm
  | some b =>
    refine ⟨c, ?_, rfl, h⟩
    rw [OprfClient.cacheInverse, Method.call_bind_ok (Method.call_get c), if_neg h.2.1]
    rfl

theorem call_finalizeBuffer {c' : OprfClient} (h : (cacheInverse ctx).call c = (.ok (), c'))
    (mem : ℕ → Byte) (point : P) (privateInput : List Byte) :
    (finalizeBuffer ctx mem point privateInput).call c =
      (c'.hashBuf ctx mem point privateInput, c') := by
  rw [finalizeBuffer, Method.call_bind_ok h, Method.call_bind_ok (Method.call_get c'),
    Method.call_liftM]

theorem call_finalize_snd (c : OprfClient) (mem : ℕ → Byte) (point : P) (privateInput : List Byte) :
    ((finalize ctx mem point privateInput).call c).2 =
      ((finalizeBuffer ctx mem point privateInput).call c).2 := by
  rw [finalize, Method.call_bind]
  split <;> rename_i h <;> rw [h]
  rfl

/-- **In every history** the blind is a result of `RandomLtN`, the cached inverse is the one of the
first `Finalize`, and the pending point was blinded with the blind. -/
theorem Rounds.inv {key : MPInt} {first : Option MPInt} {pending : Option (List Byte × P)}
    (h : Rounds ctx key c first pending) :
    (0 < c.blind ∧ c.blind < ctx.ec.order) ∧ Cached ctx c first ∧
      ∀ input point, pending = some (input, point) →
        point = OprfServer.blindEvaluate ctx key (c.blindInput ctx input) := by
  induction h with
  | make hb => exact ⟨hb, rfl, by simp⟩
  | @refreshBlind c first _ _ b hb ih =>
    have hcached : Cached ctx (c.refreshBlind b) first := by
      cases first <;> exact ih.2.1
    exact ⟨hb, hcached, by simp⟩
  | clearBlind _ hb _ => exact ⟨hb, rfl, by simp⟩
  | blind _ input ih =>
    refine ⟨ih.1, ih.2.1, fun input' point h => ?_⟩
    obtain ⟨rfl, rfl⟩ := Prod.mk.inj (Option.some.inj h)
    rfl
  | finalize _ mem privateInput ih =>
    obtain ⟨c', hcall, hblind, hcached⟩ := ih.2.1.cacheInverse ih.1
    rw [call_finalize_snd, call_finalizeBuffer hcall]
    refine ⟨hblind ▸ ih.1, hcached, fun input' point' h => ?_⟩
    rw [ih.2.2 input' point' h, blindInput, blindInput, hblind]

/-- A context over the integers modulo five. -/
def oprfCtxFive : OprfCtx (ZMod 5) where
  ec := ecGroupFive
  hashToCurve _ := 1
  hash := id
  ctxStr := literal "OPRFV1-0-P256-SHA256"

theorem serializePoint_five_injective : Function.Injective oprfCtxFive.ec.serializePoint := by
  decide

theorem smul_unblind_iff {K : Type} [Field K] [Module K P] {a : K} (ha : a ≠ 0) (b : K) (q : P) :
    a⁻¹ • b • q = q ↔ a = b ∨ q = 0 := by
  rw [inv_smul_eq_iff₀ ha, ← sub_eq_zero, ← sub_smul, smul_eq_zero, sub_eq_zero, eq_comm]

variable {mem mem' : ℕ → Byte} {privateInput a b : List Byte}

/-- With private inputs of the same length, the hashed bytes determine the bytes of the point. -/
theorem eq_of_finalizeInput {privateInput' : List Byte}
    (hlen : privateInput.length = privateInput'.length)
    (h : finalizeInput mem privateInput a = finalizeInput mem' privateInput' b) : a = b := by
  have htotal := congrArg List.length h
  simp only [finalizeInput, List.length_append, length_lengthBytes, length_snprintfArea] at htotal
  have hpoint : a.length = b.length := by omega
  have hfront := List.append_inj_left' h (by rw [length_snprintfArea, length_snprintfArea])
  exact List.append_inj_right' hfront hpoint

theorem finalizeInput_inj :
    finalizeInput mem privateInput a = finalizeInput mem privateInput b ↔ a = b :=
  ⟨eq_of_finalizeInput rfl, fun h => by rw [h]⟩

/-- **`Finalize` in every history** of a client, with the point that the server has made of the last
blinded input: it hashes the product of the key and of the hash of the input exactly if the blind is
the one of the first `Finalize`, or if the product is zero. -/
theorem finalize_point_iff (hser : Function.Injective ctx.ec.serializePoint)
    (hlen : ∀ q, (ctx.ec.serializePoint q).length ≤ 1 <<< 16) {key : MPInt} {c : OprfClient}
    {first : Option MPInt} {input : List Byte} {point : P}
    (h : Rounds ctx key c first (some (input, point))) (mem : ℕ → Byte) {privateInput : List Byte}
    (hprivate : privateInput.length ≤ 1 <<< 16) :
    ∃ hashBuf c', (finalizeBuffer ctx mem point privateInput).call c = (.ok hashBuf, c') ∧
      (finalize ctx mem point privateInput).call c = (.ok (ctx.hash hashBuf), c') ∧
      (hashBuf = finalizeInput mem privateInput
          (ctx.ec.serializePoint (ctx.ec.mul (ctx.hashToCurve input) key)) ↔
        first.getD c.blind = c.blind ∨ ctx.ec.mul (ctx.hashToCurve input) key = 0) := by
  obtain ⟨hblind, hcached, hpoint⟩ := h.inv
  obtain ⟨c', hcall, hblind', hfirst, -, hinv⟩ := hcached.cacheInverse hblind
  have hbuf := call_finalizeBuffer hcall mem point privateInput
  rw [hashBuf, enforce_bind hprivate, enforce_bind (hlen _)] at hbuf
  refine ⟨_, c', hbuf, Method.call_bind_ok hbuf _, ?_⟩
  rw [finalizeInput_inj, hser.eq_iff, hpoint input point rfl, OprfServer.blindEvaluate, blindInput,
    EcGroup.mul_eq_smul, EcGroup.mul_eq_smul, EcGroup.mul_eq_smul, EcGroup.mul_eq_smul, hinv,
    smul_comm (key : ZMod ctx.ec.order), smul_unblind_iff (cast_ne_zero hfirst),
    cast_inj hfirst hblind]

/-- The first `Finalize` of a client, with the blind two and a private input of two bytes, removes
the blind. -/
theorem finalize_five :
    ∃ c', (finalizeBuffer oprfCtxFive (fun _ => 0) 1 [7, 8]).call (make 2) =
      (.ok (finalizeInput (fun _ => 0) [7, 8] (oprfCtxFive.ec.serializePoint
        (oprfCtxFive.ec.mul (oprfCtxFive.hashToCurve [4]) 3))), c') := by
  have hfirst : Rounds oprfCtxFive 3 (make 2) none (some ([4], 1)) := .blind (.make (by decide)) [4]
  obtain ⟨hashBuf, c', hcall, -, hpoint⟩ := finalize_point_iff serializePoint_five_injective
    (by decide) hfirst (fun _ => 0) (show ([7, 8] : List Byte).length ≤ 1 <<< 16 by decide)
  exact ⟨c', hpoint.2 (.inl rfl) ▸ hcall⟩

/-- **A new blind after a `Finalize`**: the second `Finalize` removes the first blind, and hashes a
point that is not the product of the key and of the hash of the input. -/
theorem finalize_refreshed :
    ∃ (c : OprfClient) (first : Option MPInt) (point : ZMod 5) (hashBuf : List Byte)
      (c' : OprfClient), Rounds oprfCtxFive 3 c first (some ([], point)) ∧
      (finalizeBuffer oprfCtxFive (fun _ => 0) point []).call c = (.ok hashBuf, c') ∧
      hashBuf ≠ finalizeInput (fun _ => 0) []
        (oprfCtxFive.ec.serializePoint (oprfCtxFive.ec.mul (oprfCtxFive.hashToCurve []) 3)) := by
  have hfirst : Rounds oprfCtxFive 3 (make 1) none (some ([], 3)) := .blind (.make (by decide)) []
  have hclient : ((finalize oprfCtxFive (fun _ => 0) 3 []).call (make 1)).2 = ⟨1, 1⟩ := by
    decide +kernel
  have hfinal : Rounds oprfCtxFive 3 ⟨1, 1⟩ (some 1) (some ([], 3)) :=
    hclient ▸ .finalize hfirst (fun _ => 0) []
  have hsecond : Rounds oprfCtxFive 3 ⟨2, 1⟩ (some 1) (some ([], 1)) :=
    .blind (.refreshBlind hfinal (by decide)) []
  exact ⟨_, _, _, _, _, hsecond, rfl, by decide⟩

/-! ### What the hashed bytes determine -/

/-- **With an empty info** the bytes that `DeriveKeyPair` hashes determine the seed and the info. -/
theorem deriveInput_nil {seed seed' : BitVec (8 * 16)} {info : List Byte}
    (hinfo : info.length < 1 <<< 16)
    (h : ctx.deriveInput mem seed [] = ctx.deriveInput mem' seed' info) :
    seed = seed' ∧ [] = info := by
  simp only [OprfCtx.deriveInput, List.append_assoc] at h
  obtain ⟨hseed, h⟩ := List.append_inj h (by rw [length_wordBytes, length_wordBytes])
  obtain ⟨hlen, -⟩ := List.append_inj h (by rw [length_lengthBytes, length_lengthBytes])
  have hmod := mod_eq_of_lengthBytes hlen
  rw [List.length_nil, Nat.zero_mod, Nat.mod_eq_of_lt (by omega)] at hmod
  exact ⟨wordBytes_injective 16 hseed, (List.length_eq_zero_iff.1 hmod.symm).symm⟩

/-- **With an empty private input** the bytes that `Finalize` hashes determine the private input and
the bytes of the point. -/
theorem finalizeInput_nil (hprivate : privateInput.length ≤ 1 <<< 16) (ha : a.length ≤ 1 <<< 16)
    (hb : 0 < b.length) (h : finalizeInput mem [] a = finalizeInput mem' privateInput b) :
    [] = privateInput ∧ a = b := by
  have htotal := congrArg List.length h
  simp only [finalizeInput, List.length_append, length_lengthBytes, length_snprintfArea,
    List.length_nil] at htotal
  have hmod : 0 % 2 ^ 16 = privateInput.length % 2 ^ 16 := by
    have hcut := h
    exact mod_eq_of_lengthBytes
      (List.append_inj_left hcut (by rw [length_lengthBytes, length_lengthBytes]))
  -- the two bytes are also zero for the largest length, but then the point would be too long
  have hempty : privateInput.length = 0 := by omega
  have hnil := List.length_eq_zero_iff.1 hempty
  exact ⟨hnil.symm, eq_of_finalizeInput (by rw [hnil]) h⟩

theorem hashBuf_congr {privateInput' : List Byte}
    (hlen : privateInput.length = privateInput'.length)
    (harea : snprintfArea (fun i => mem (2 + i)) privateInput = snprintfArea
      (fun i => mem (2 + i)) privateInput')
    (point : P) : c.hashBuf ctx mem point privateInput = c.hashBuf ctx mem point privateInput' := by
  have hinput : ∀ pointBuf,
      finalizeInput mem privateInput pointBuf = finalizeInput mem privateInput' pointBuf := by
    intro pointBuf
    rw [finalizeInput, finalizeInput, hlen, harea]
  simp only [hashBuf, hlen, hinput]

/-- **The strings that are bound by the hash.** For every info and every private input within the
accepted lengths: the bytes that `DeriveKeyPair` hashes determine the seed and the info exactly if
the info is empty, and the bytes that `Finalize` hashes determine the private input and the
evaluated point exactly if the private input is empty. -/
theorem hashed_input_iff (hser : Function.Injective ctx.ec.serializePoint)
    (hlen : ∀ q, 0 < (ctx.ec.serializePoint q).length ∧
      (ctx.ec.serializePoint q).length ≤ 1 <<< 16) {c : OprfClient}
    (hinv : (c.blindInv : ZMod ctx.ec.order) ≠ 0) :
    (∀ (seed : BitVec (8 * 16)) (info : List Byte), info.length < 1 <<< 16 →
      ((∀ mem mem' seed' info', info'.length < 1 <<< 16 →
        ctx.deriveInput mem seed info = ctx.deriveInput mem' seed' info' →
          seed = seed' ∧ info = info') ↔ info = [])) ∧
    ∀ (privateInput : List Byte) (point : P), privateInput.length ≤ 1 <<< 16 →
      ((∀ mem mem' privateInput' point', privateInput'.length ≤ 1 <<< 16 →
        c.hashBuf ctx mem point privateInput = c.hashBuf ctx mem' point' privateInput' →
          privateInput = privateInput' ∧ point = point') ↔ privateInput = []) := by
  refine ⟨fun seed info hinfo => ⟨fun hbind => ?_, ?_⟩,
    fun privateInput point hprivate => ⟨fun hbind => ?_, ?_⟩⟩
  · by_contra hne
    obtain ⟨info', hne', hlen', harea⟩ := exists_snprintfArea_eq hne
    refine hne' (hbind (fun _ => 0) (fun _ => 0) seed info' (hlen' ▸ hinfo) ?_).2.symm
    rw [OprfCtx.deriveInput, OprfCtx.deriveInput, harea, hlen']
  · rintro rfl mem mem' seed' info' hinfo' h
    exact deriveInput_nil hinfo' h
  · by_contra hne
    obtain ⟨privateInput', hne', hlen', harea⟩ := exists_snprintfArea_eq hne
    refine hne' (hbind (fun _ => 0) (fun _ => 0) privateInput' point (hlen' ▸ hprivate) ?_).1.symm
    exact hashBuf_congr hlen'.symm (harea _) point
  · rintro rfl mem mem' privateInput' point' hprivate' h
    rw [hashBuf, hashBuf, enforce_bind hprivate', enforce_bind (hlen _).2,
      enforce_bind (hlen _).2] at h
    obtain ⟨hnil, hpoint⟩ := finalizeInput_nil hprivate' (hlen _).2 (hlen _).1 (Except.ok.inj h)
    refine ⟨hnil, ?_⟩
    have hmul := hser hpoint
    rw [EcGroup.mul_eq_smul, EcGroup.mul_eq_smul] at hmul
    exact smul_right_injective P hinv hmul

/-- An empty info and an empty private input are bound. -/
theorem hashed_input_five :
    (∀ (seed : BitVec (8 * 16)) (info : List Byte), info.length < 1 <<< 16 →
      ((∀ mem mem' seed' info', info'.length < 1 <<< 16 →
        oprfCtxFive.deriveInput mem seed info = oprfCtxFive.deriveInput mem' seed' info' →
          seed = seed' ∧ info = info') ↔ info = [])) ∧
    ∀ (privateInput : List Byte) (point : ZMod 5), privateInput.length ≤ 1 <<< 16 →
      ((∀ mem mem' privateInput' point', privateInput'.length ≤ 1 <<< 16 →
        hashBuf oprfCtxFive ⟨2, 3⟩ mem point privateInput =
            hashBuf oprfCtxFive ⟨2, 3⟩ mem' point' privateInput' →
          privateInput = privateInput' ∧ point = point') ↔ privateInput = []) :=
  hashed_input_iff serializePoint_five_injective (by decide) (by decide)

/-- **Inputs that are not bound**: two infos of one character, and two private inputs of one
character. -/
theorem hashed_input_oneCharacter :
    oprfCtxFive.deriveInput (fun _ => 0) 7 (literal "a") =
        oprfCtxFive.deriveInput (fun _ => 0) 7 (literal "b") ∧
      hashBuf oprfCtxFive ⟨2, 3⟩ (fun _ => 0) 1 (literal "a") =
        hashBuf oprfCtxFive ⟨2, 3⟩ (fun _ => 0) 1 (literal "b") ∧
      literal "a" ≠ literal "b" :=
  ⟨by decide, rfl, by decide⟩

end OprfClient

/-! ### The attempts of `DeriveKeyPair` -/

/-- The variables of the loop of `DeriveKeyPair`, and the inputs that were hashed so far. -/
structure Derivation where
  sk : MPInt
  counter : BitVec 8
  hashed : List (List Byte)

namespace OprfCtx

variable {P : Type} [AddCommGroup P] (ctx : OprfCtx P)

/-- The body of the loop. -/
def deriveRound (input : List Byte) : Method Derivation Unit := do
  let d ← get
  enforce (d.counter.toNat ≤ 255) "counter <= 255" ""
  set { d with
    sk := fromMagBytes (ctx.hash input) % ctx.ec.order
    counter := d.counter + 1
    hashed := d.hashed ++ [input] }

/-- The loop, with fuel. -/
def deriveLoop (input : List Byte) : ℕ → Method Derivation Unit
  | 0 => throw .nonTermination
  | fuel + 1 => do
    let d ← get
    if d.sk = 0 then do
      ctx.deriveRound input
      deriveLoop input fuel
    else pure ()

/-- `DeriveKeyPair`, with its loop. -/
def deriveAttempts (mem : ℕ → Byte) (seed : BitVec (8 * 16)) (info : List Byte) (fuel : ℕ) :
    Method Derivation (MPInt × P) := do
  enforce (info.length < 1 <<< 16) "info.size() < (1 << 16)" ""
  ctx.deriveLoop (ctx.deriveInput mem seed info) fuel
  let d ← get
  pure (d.sk, ctx.ec.mulBase d.sk)

/-- **The derivation is bounded**: it returns a key other than zero, or throws, and the inputs of
its hashes are at most 256 different ones. -/
def BoundedDerivation (mem : ℕ → Byte) (seed : BitVec (8 * 16)) (info : List Byte) : Prop :=
  ∃ fuel r d, (ctx.deriveAttempts mem seed info fuel).call ⟨0, 0, []⟩ = (r, d) ∧
    Safe (fun key => key.1 ≠ 0) r ∧ d.hashed.length ≤ 256 ∧ d.hashed.Nodup

variable {ctx}

/-- **A round** hashes the same input as every other one. The counter is a byte, so the check never
fails. -/
theorem deriveRound_call (input : List Byte) (d : Derivation) :
    (ctx.deriveRound input).call d = (.ok (), ⟨fromMagBytes (ctx.hash input) % ctx.ec.order,
      d.counter + 1, d.hashed ++ [input]⟩) := by
  have hcounter : d.counter.toNat ≤ 255 := Nat.le_of_lt_succ d.counter.isLt
  rw [deriveRound, Method.call_bind_ok (Method.call_get d), enforce_of_pos hcounter]
  rfl

/-- **A hash that is zero** modulo the order is computed again and again. -/
theorem deriveLoop_zero {input : List Byte}
    (h : fromMagBytes (ctx.hash input) % ctx.ec.order = 0) (fuel : ℕ) :
    ∀ d : Derivation, d.sk = 0 →
      ((ctx.deriveLoop input fuel).call d).1 = .error .nonTermination := by
  induction fuel with
  | zero => exact fun _ _ => rfl
  | succ fuel ih =>
    intro d hd
    rw [deriveLoop, Method.call_bind_ok (Method.call_get d), if_pos hd,
      Method.call_bind_ok (deriveRound_call input d)]
    exact ih _ h

theorem deriveLoop_ne_zero {input : List Byte}
    (h : fromMagBytes (ctx.hash input) % ctx.ec.order ≠ 0) (fuel : ℕ) :
    (ctx.deriveLoop input (fuel + 2)).call ⟨0, 0, []⟩ =
      (.ok (), ⟨fromMagBytes (ctx.hash input) % ctx.ec.order, 1, [input]⟩) := by
  rw [deriveLoop, Method.call_bind_ok (Method.call_get _), if_pos rfl,
    Method.call_bind_ok (deriveRound_call input _), deriveLoop,
    Method.call_bind_ok (Method.call_get _), if_neg h]
  rfl

section Attempts

variable {mem : ℕ → Byte} {seed : BitVec (8 * 16)} {info : List Byte}

theorem deriveAttempts_zero (hinfo : info.length < 1 <<< 16)
    (h : fromMagBytes (ctx.hash (ctx.deriveInput mem seed info)) % ctx.ec.order = 0)
    (fuel : ℕ) :
    ((ctx.deriveAttempts mem seed info fuel).call ⟨0, 0, []⟩).1 = .error .nonTermination := by
  have hloop := deriveLoop_zero h fuel ⟨0, 0, []⟩ rfl
  rw [deriveAttempts, enforce_of_pos hinfo, Method.call_bind_ok (Method.call_liftM _ _),
    Method.call_bind_error (Prod.ext hloop rfl)]

theorem deriveAttempts_ne_zero (hinfo : info.length < 1 <<< 16)
    (h : fromMagBytes (ctx.hash (ctx.deriveInput mem seed info)) % ctx.ec.order ≠ 0)
    (fuel : ℕ) :
    (ctx.deriveAttempts mem seed info (fuel + 2)).call ⟨0, 0, []⟩ =
      (ctx.deriveKeyPair mem seed info,
        ⟨fromMagBytes (ctx.hash (ctx.deriveInput mem seed info)) % ctx.ec.order, 1,
          [ctx.deriveInput mem seed info]⟩) := by
  rw [deriveAttempts, deriveKeyPair, enforce_of_pos hinfo, if_neg h,
    Method.call_bind_ok (Method.call_liftM _ _), Method.call_bind_ok (deriveLoop_ne_zero h fuel)]
  rfl

theorem not_bounded_of_zero (hinfo : info.length < 1 <<< 16)
    (h : fromMagBytes (ctx.hash (ctx.deriveInput mem seed info)) % ctx.ec.order = 0) :
    ¬ ctx.BoundedDerivation mem seed info := by
  rintro ⟨fuel, r, d, hcall, hsafe, -⟩
  have hr := deriveAttempts_zero hinfo h fuel
  rw [hcall] at hr
  obtain rfl : r = _ := hr
  cases hsafe with
  | error h => exact h

end Attempts

/-- **`DeriveKeyPair` is bounded** exactly if the info is too long or the one input that it hashes
gives a key other than zero. -/
theorem boundedDerivation_iff (mem : ℕ → Byte) (seed : BitVec (8 * 16)) (info : List Byte) :
    ctx.BoundedDerivation mem seed info ↔ 1 <<< 16 ≤ info.length ∨
      fromMagBytes (ctx.hash (ctx.deriveInput mem seed info)) % ctx.ec.order ≠ 0 := by
  rw [← not_lt]
  constructor
  · intro h
    by_contra! ⟨hinfo, hzero⟩
    exact not_bounded_of_zero hinfo hzero h
  · intro h
    by_cases hinfo : info.length < 1 <<< 16
    · have hkey := h.resolve_left (not_not.mpr hinfo)
      refine ⟨2, _, _, deriveAttempts_ne_zero hinfo hkey 0, ?_, by simp, List.nodup_singleton _⟩
      rw [deriveKeyPair, enforce_bind hinfo, if_neg hkey]
      exact .ok hkey
    · refine ⟨0, .error (.enforceNotMet "info.size() < (1 << 16)" ""), ⟨0, 0, []⟩, ?_,
        .error trivial, Nat.zero_le _, List.nodup_nil⟩
      rw [deriveAttempts, enforce_of_neg hinfo]
      rfl

/-- A context whose hash is always zero. -/
def oprfCtxZero : OprfCtx (ZMod 5) := { OprfClient.oprfCtxFive with hash := fun _ => [0] }

/-- **A hash that is zero**: no number of rounds ends the loop. -/
theorem not_boundedDerivation_zero : ¬ oprfCtxZero.BoundedDerivation (fun _ => 0) 7 [] :=
  not_bounded_of_zero (by decide) (by decide)

end OprfCtx

end Yacl.Crypto
