import Yacl.Base.Span
import Yacl.Lib.Bytes

/-!
# The syncable generator

The model of `SyncDrbg::Fill` and `SyncDrbg::Reseed` of
`yacl/crypto/experimental/sync_drbg/sync_drbg.cc`. `Fill` asks a hash DRBG for the bytes of a buffer
in batches of `65536`. The DRBG is a library of its own; of it we know that a call that succeeds
writes all the bytes that it was asked for, and that a call that requires a new seed writes nothing.

When a call requires a new seed, `Fill` draws one and goes on with the **next** batch. So a `Fill`
that returns `1` has filled its buffer exactly if no call required a new seed (`fill_filled_iff`).
-/

open Bytes

namespace Yacl.Crypto

/-- The hash DRBG. -/
structure HashDrbg where
  /-- `HASH_DRBG_CTX`. -/
  Ctx : Type
  /-- `gen_rnd_bytes_with_hash_drbg`: the return code, the context after the call, and the bytes
  that are written from the beginning of the output on. -/
  genRndBytes : Ctx → (n : ℕ) → (additionalData : List Byte) → ℤ × Ctx × List Byte
  /-- `reseed_hash_drbg`: the return code and the context after the call. -/
  reseed : Ctx → (seed additionalData : List Byte) → ℤ × Ctx
  /-- `REQUIRE_RESEED`. -/
  requireReseed : ℤ
  requireReseed_ne_zero : requireReseed ≠ 0
  length_of_success : ∀ ctx n additionalData, (genRndBytes ctx n additionalData).1 = 0 →
    (genRndBytes ctx n additionalData).2.2.length = n
  nil_of_requireReseed : ∀ ctx n additionalData,
    (genRndBytes ctx n additionalData).1 = requireReseed →
    (genRndBytes ctx n additionalData).2.2 = []

/-- `SyncDrbg`. -/
structure SyncDrbg (D : HashDrbg) where
  /-- `ctx_`. -/
  ctx : D.Ctx
  /-- `sync_flag_`. -/
  syncFlag : Bool

namespace SyncDrbg

variable {D : HashDrbg}

/-- `kBatchSize`. -/
def kBatchSize : ℕ := 65536

/-- `Reseed`, with the result of `GetEntropy`: the context after it. -/
def reseed (D : HashDrbg) (ctx : D.Ctx) (seed additionalData : List Byte) :
    Except Exception D.Ctx := do
  enforce (additionalData.length ≤ 32) "additional_data.size() <= 32" ""
  let res := D.reseed ctx seed additionalData
  enforce (res.1 = 0)
    ("reseed_hash_drbg(ctx_.get(), (unsigned char*)seed.data(), seed.size(), " ++
      "(unsigned char*)additional_data.data(), additional_data.size()) == 0") ""
  pure res.2

/-- What `Fill` changes, and the return codes of its calls. -/
structure FillState (D : HashDrbg) where
  /-- The context. -/
  ctx : D.Ctx
  /-- The bytes of the buffer that calls have written. -/
  buf : List (Option Byte)
  /-- The return codes of the calls so far. -/
  codes : List ℤ

/-- A call for `limit` bytes at `offset`: its return code, and the state after it. -/
def generate (additionalData : List Byte) (offset limit : ℕ) (s : FillState D) :
    ℤ × FillState D :=
  let res := D.genRndBytes s.ctx limit additionalData
  (res.1,
    { ctx := res.2.1
      buf := overwrite s.buf offset res.2.2.length fun i => some (res.2.2.getD i 0)
      codes := s.codes ++ [res.1] })

/-- `limit`: the number of bytes of a batch. -/
def limit (len step : ℕ) : ℕ := min kBatchSize (len - step * kBatchSize)

/-- The loop of `Fill`, with `n` batches left, and with the entropy that is drawn in a batch that
needs it. `Fill` is `noexcept`, so an exception ends the program. -/
def fillLoop (len : ℕ) (additionalData : List Byte) (entropy : ℕ → List Byte) :
    (n step : ℕ) → FillState D → Except Exception (ℕ × FillState D)
  | 0, _, s => pure (1, s)
  | n + 1, step, s =>
    let res := generate additionalData (step * kBatchSize) (limit len step) s
    if res.1 = D.requireReseed then do
      let ctx ← reseed D res.2.ctx (entropy step) []
      -- the batch that has just failed is not asked for again
      fillLoop len additionalData entropy n (step + 1) { res.2 with ctx }
    else if res.1 = 0 then fillLoop len additionalData entropy n (step + 1) res.2
    else pure (0, res.2)

/-- `batch_num`. The sum is of type `size_t`; it does not wrap around, because the buffer lies in
memory, so that `len ≤ 2 ^ 63`. -/
def batchNum (len : ℕ) : ℕ := (len + kBatchSize - 1) / kBatchSize

/-- `Fill`: its return value, and the state after it. -/
def fill (g : SyncDrbg D) (len : ℕ) (additionalData : List Byte) (entropy : ℕ → List Byte) :
    Except Exception (ℕ × FillState D) :=
  let s : FillState D := ⟨g.ctx, List.replicate len none, []⟩
  if additionalData.length > 32 then pure (0, s)
  else if g.syncFlag then pure (0, s)
  else fillLoop len additionalData entropy (batchNum len) 0 s

/-- **The buffer is filled**: the call for the batch of every byte succeeded, and the byte is
written. -/
def Filled (len : ℕ) (s : FillState D) : Prop :=
  ∀ i < len, s.codes[i / kBatchSize]? = some 0 ∧ ∃ b, s.buf[i]? = some (some b)

/-! ### The batches -/

theorem kBatchSize_eq : kBatchSize = 65536 := rfl

theorem kBatchSize_pos : 0 < kBatchSize := by
  rw [kBatchSize_eq]
  omega

theorem lt_batchNum_iff {len k : ℕ} : k < batchNum len ↔ k * kBatchSize < len := by
  rw [batchNum, Nat.lt_iff_add_one_le, Nat.le_div_iff_mul_le kBatchSize_pos, Nat.succ_mul]
  have := kBatchSize_pos
  omega

/-- **After `step` batches** a byte is written exactly if the call for its batch succeeded, and all
calls succeeded or required a new seed. -/
structure Inv (len step : ℕ) (s : FillState D) : Prop where
  length_buf : s.buf.length = len
  length_codes : s.codes.length = step
  written_iff : ∀ i < len,
    (∃ b, s.buf[i]? = some (some b)) ↔ s.codes[i / kBatchSize]? = some 0
  codes_eq : ∀ c ∈ s.codes, c = 0 ∨ c = D.requireReseed

theorem Inv.start (ctx : D.Ctx) (len : ℕ) : Inv len 0 ⟨ctx, List.replicate len none, []⟩ where
  length_buf := List.length_replicate
  length_codes := rfl
  written_iff i hi := by simp [hi]
  codes_eq := by simp

theorem Inv.withCtx {len step : ℕ} {s : FillState D} (h : Inv len step s) (ctx : D.Ctx) :
    Inv len step { s with ctx } :=
  ⟨h.length_buf, h.length_codes, h.written_iff, h.codes_eq⟩

section Call

variable {len step : ℕ} {s : FillState D} {additionalData : List Byte}

theorem buf_generate (additionalData : List Byte) (offset n : ℕ) (s : FillState D) :
    (generate additionalData offset n s).2.buf =
      overwrite s.buf offset (D.genRndBytes s.ctx n additionalData).2.2.length
        fun i => some ((D.genRndBytes s.ctx n additionalData).2.2.getD i 0) :=
  rfl

theorem codes_generate (additionalData : List Byte) (offset n : ℕ) (s : FillState D) :
    (generate additionalData offset n s).2.codes =
      s.codes ++ [(generate additionalData offset n s).1] :=
  rfl

theorem written_of_success {i : ℕ}
    (hcode : (generate additionalData (step * kBatchSize) (limit len step) s).1 = 0)
    (hstep : i / kBatchSize = step) (hi : i < len) (hbuf : s.buf.length = len) :
    ∃ b, (generate additionalData (step * kBatchSize) (limit len step) s).2.buf[i]? =
      some (some b) := by
  have hmod := Nat.div_add_mod' i kBatchSize
  have hlt := Nat.mod_lt i kBatchSize_pos
  rw [hstep] at hmod
  rw [buf_generate, D.length_of_success _ _ _ hcode, limit]
  exact ⟨_, getElem?_overwrite_of_mem (by omega) (by omega)⟩

theorem getElem?_of_success {i : ℕ}
    (hcode : (generate additionalData (step * kBatchSize) (limit len step) s).1 = 0)
    (hstep : i / kBatchSize ≠ step) :
    (generate additionalData (step * kBatchSize) (limit len step) s).2.buf[i]? = s.buf[i]? := by
  rw [buf_generate, D.length_of_success _ _ _ hcode]
  refine getElem?_overwrite_of_notMem fun hmem => hstep ?_
  have hle : limit len step ≤ kBatchSize := Nat.min_le_left _ _
  refine Nat.div_eq_of_lt_le hmem.1 ?_
  rw [Nat.succ_mul]
  omega

theorem buf_of_requireReseed {offset n : ℕ}
    (hcode : (generate additionalData offset n s).1 = D.requireReseed) :
    (generate additionalData offset n s).2.buf = s.buf := by
  rw [buf_generate, D.nil_of_requireReseed _ _ _ hcode]
  exact overwrite_zero _ _ _

theorem getElem?_codes_generate (hlen : s.codes.length = step) (offset n k : ℕ) :
    (generate additionalData offset n s).2.codes[k]? =
      if k = step then some (generate additionalData offset n s).1 else s.codes[k]? := by
  rw [codes_generate]
  split
  · rename_i hk
    rw [hk, ← hlen, List.getElem?_concat_length]
  · rename_i hk
    by_cases hlt : k < step
    · rw [List.getElem?_append_left (by omega)]
    · rw [List.getElem?_eq_none (by rw [List.length_append, List.length_singleton]; omega),
        List.getElem?_eq_none (by omega)]

/-- **One call** that succeeds or requires a new seed keeps the invariant. -/
theorem Inv.generate (h : Inv len step s)
    (hcode : (generate additionalData (step * kBatchSize) (limit len step) s).1 = 0 ∨
      (generate additionalData (step * kBatchSize) (limit len step) s).1 = D.requireReseed) :
    Inv len (step + 1) (generate additionalData (step * kBatchSize) (limit len step) s).2 where
  length_buf := by rw [buf_generate, length_overwrite, h.length_buf]
  length_codes := by
    rw [codes_generate, List.length_append, h.length_codes, List.length_singleton]
  written_iff i hi := by
    rw [getElem?_codes_generate h.length_codes]
    have hold := h.written_iff i hi
    split
    · -- the batch of this call; nothing was written there before
      rename_i hstep
      rw [Option.some_inj]
      rcases hcode with hcode | hcode
      · exact iff_of_true (written_of_success hcode hstep hi h.length_buf) hcode
      · rw [buf_of_requireReseed hcode, hold, hcode,
          List.getElem?_eq_none (by rw [h.length_codes, hstep])]
        simp [D.requireReseed_ne_zero]
    · rename_i hstep
      rcases hcode with hcode | hcode
      · rw [getElem?_of_success hcode hstep, hold]
      · rw [buf_of_requireReseed hcode, hold]
  codes_eq c hc := by
    rw [codes_generate, List.mem_append, List.mem_singleton] at hc
    rcases hc with hc | rfl
    · exact h.codes_eq c hc
    · exact hcode

/-- **All batches.** A loop that returns `1` has called the generator once for every batch. -/
theorem Inv.fillLoop {entropy : ℕ → List Byte} {n : ℕ} {s' : FillState D} (h : Inv len step s)
    (hrun : fillLoop len additionalData entropy n step s = .ok (1, s')) :
    Inv len (step + n) s' := by
  induction n generalizing step s with
  | zero =>
    injection hrun with hrun
    injection hrun with _ hs
    rwa [← hs]
  | succ n ih =>
    rw [SyncDrbg.fillLoop] at hrun
    rw [show step + (n + 1) = step + 1 + n by omega]
    split at hrun
    · rename_i hcode
      obtain ⟨ctx, -, hrun⟩ := of_bind_eq_ok hrun
      exact ih ((h.generate (.inr hcode)).withCtx ctx) hrun
    · split at hrun
      · rename_i hcode
        exact ih (h.generate (.inl hcode)) hrun
      · injection hrun with hrun
        injection hrun with hrun
        contradiction

end Call

/-- With all calls done, the buffer is filled exactly if none required a new seed. -/
theorem Inv.filled_iff {len : ℕ} {s : FillState D} (h : Inv len (batchNum len) s) :
    Filled len s ↔ D.requireReseed ∉ s.codes := by
  constructor
  · intro hfill hmem
    obtain ⟨k, hk, hcode⟩ := List.getElem_of_mem hmem
    have hlt : k * kBatchSize < len := lt_batchNum_iff.1 (by rw [← h.length_codes]; exact hk)
    have hzero := (hfill _ hlt).1
    rw [Nat.mul_div_cancel _ kBatchSize_pos, List.getElem?_eq_getElem hk, hcode,
      Option.some_inj] at hzero
    exact D.requireReseed_ne_zero hzero
  · intro hnone i hi
    have hlt : i / kBatchSize < s.codes.length := by
      rw [h.length_codes, lt_batchNum_iff]
      exact lt_of_le_of_lt (Nat.div_mul_le_self i kBatchSize) hi
    have hzero : s.codes[i / kBatchSize]? = some 0 := by
      rw [List.getElem?_eq_getElem hlt, Option.some_inj]
      have hmem := List.getElem_mem hlt
      exact (h.codes_eq _ hmem).resolve_right fun hcode => hnone (hcode ▸ hmem)
    exact ⟨hzero, (h.written_iff i hi).2 hzero⟩

/-- **`Fill` that returns `1`** has filled its buffer exactly if no call of the hash DRBG required
a new seed. -/
theorem fill_filled_iff (g : SyncDrbg D) {len : ℕ} {additionalData : List Byte}
    {entropy : ℕ → List Byte} {s : FillState D}
    (h : g.fill len additionalData entropy = .ok (1, s)) :
    Filled len s ↔ D.requireReseed ∉ s.codes := by
  rw [fill] at h
  split at h
  · injection h with h
    injection h with h
    contradiction
  · split at h
    · injection h with h
      injection h with h
      contradiction
    · have hinv := (Inv.start g.ctx len).fillLoop h
      rw [Nat.zero_add] at hinv
      exact hinv.filled_iff

/-- A hash DRBG whose context is the number of calls until a new seed is required. -/
def countdown : HashDrbg where
  Ctx := ℕ
  genRndBytes ctx n _ := if ctx = 0 then (8, 0, []) else (0, ctx - 1, List.replicate n 7)
  reseed _ _ _ := (0, 48)
  requireReseed := 8
  requireReseed_ne_zero := by decide
  length_of_success ctx n _ h := by
    by_cases hctx : ctx = 0
    · simp [hctx] at h
    · rw [if_neg hctx, List.length_replicate]
  nil_of_requireReseed ctx n _ h := by
    by_cases hctx : ctx = 0
    · rw [if_pos hctx]
    · simp [hctx] at h

/-- A generator with one call left fills a byte. -/
theorem fill_countdown_one :
    Filled (D := countdown) 1 ⟨(0 : ℕ), [some 7], [0]⟩ ↔ countdown.requireReseed ∉ [(0 : ℤ)] :=
  fill_filled_iff ⟨(1 : ℕ), false⟩
    (show SyncDrbg.fill _ 1 [] (fun _ => []) = _ from rfl)

/-- **With an expired counter** `Fill` draws a new seed, returns `1`, and leaves the byte that it
was asked for as it was. -/
theorem fill_countdown_zero :
    (⟨(0 : ℕ), false⟩ : SyncDrbg countdown).fill 1 [] (fun _ => []) =
        .ok (1, ⟨(48 : ℕ), [none], [8]⟩) ∧
      ¬Filled (D := countdown) 1 ⟨(48 : ℕ), [none], [8]⟩ := by
  refine ⟨rfl, fun h => ?_⟩
  obtain ⟨b, hb⟩ := (h 0 (by decide)).2
  simp at hb

end SyncDrbg

end Yacl.Crypto
