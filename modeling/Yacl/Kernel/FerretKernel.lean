import Yacl.Kernel.Ferret
import Yacl.Kernel.OtKernel

/-!
# Base transfers of the OT kernel

`OtKernel::init` of `yacl/kernel/ot_kernel.cc` fills the cache of a Ferret kernel with SoftSpoken,
once, and every evaluation hands the cache to Ferret. The cache is passed as a constant and Ferret
slices it from its beginning, so that an evaluation leaves the kernel as it was.

`EvalRun` is a sequence of evaluations of one kernel, whatever the other party sends. A transfer of
the cache is consumed by at most one bootstrap **exactly if at most one evaluation gets as far as
the bootstrap** (`evalRun_consumed_iff`): two evaluations consume the same transfers.
-/

open TwoParty Proc Tiling

namespace Yacl.Crypto.OtKernel

variable {SsSender SsReceiver : Type} (T : Tools) (ext : OtExtension SsSender SsReceiver)

/-! ### The kernel with Ferret -/

/-- One call of `eval_cot_random_choice` or `eval_rot`, with the random numbers of the call. -/
structure EvalCall (Store : Type) where
  /-- The call is one of `eval_rot`. -/
  rot : Bool
  /-- `ot_num`. -/
  otNum : ℕ
  /-- `*out` before the call. -/
  out : Store
  /-- The random numbers of the sender. -/
  rnd : FerretRandom
  /-- What is in the memory of the vector that Ferret allocates. -/
  memory : ℕ → Uint128
  /-- The choices that SoftSpoken would use. -/
  choices : DynamicBitset

/-- The extensions, with the programs of Ferret for one call. -/
def withFerret (rnd : FerretRandom) (memory : ℕ → Uint128) : OtExtension SsSender SsReceiver :=
  { ext with
    ferretOtExtSend := fun cache otNum =>
      ferretOtExtSend T .getDefault otNum false rnd memory cache
    ferretOtExtRecv := fun cache otNum => ferretOtExtRecv T .getDefault otNum false memory cache }

/-- `init` of a sender, with `OneTimeSetup` of SoftSpoken. -/
def initSend (oneTimeSetup : Party SsSender) (self : OtKernel SsSender SsReceiver) :
    Party (OtKernel SsSender SsReceiver) :=
  match self.extAlgorithm with
  | .ferret => do
    let requiredOtNum ← ferretCotHelper .getDefault false
    let core ← oneTimeSetup
    let cache ← OtSendStore.ofNum requiredOtNum .compact
    let res ← evalCotRandomChoiceSend ext ⟨.softSpoken, true, none, some (.inl core)⟩ requiredOtNum
      cache
    return { self with inited := true, initOtCache := some (.inl res.2) }
  | .softSpoken => do
    let core ← oneTimeSetup
    return { self with inited := true, ssCore := some (.inl core) }

/-- `init` of a receiver, with the choices that SoftSpoken draws for the cache. -/
def initRecv (oneTimeSetup : Party SsReceiver) (choices : DynamicBitset)
    (self : OtKernel SsSender SsReceiver) : Party (OtKernel SsSender SsReceiver) :=
  match self.extAlgorithm with
  | .ferret => do
    let requiredOtNum ← ferretCotHelper .getDefault false
    let core ← oneTimeSetup
    let cache ← OtRecvStore.ofNum requiredOtNum .compact
    let res ← evalCotRandomChoiceRecv ext ⟨.softSpoken, true, none, some (.inr core)⟩ choices
      requiredOtNum cache
    return { self with inited := true, initOtCache := some (.inr res.2) }
  | .softSpoken => do
    let core ← oneTimeSetup
    return { self with inited := true, ssCore := some (.inr core) }

/-- The sender's part of a call. -/
def evalSend (self : OtKernel SsSender SsReceiver) (c : EvalCall OtSendStore) :
    Party (OtKernel SsSender SsReceiver × OtSendStore) :=
  let ext := withFerret T ext c.rnd c.memory
  if c.rot then evalRotSend T ext self c.otNum c.out
  else evalCotRandomChoiceSend ext self c.otNum c.out

/-- The receiver's part of a call. -/
def evalRecv (self : OtKernel SsSender SsReceiver) (c : EvalCall OtRecvStore) :
    Party (OtKernel SsSender SsReceiver × OtRecvStore) :=
  let ext := withFerret T ext c.rnd c.memory
  if c.rot then evalRotRecv T ext self c.choices c.otNum c.out
  else evalCotRandomChoiceRecv ext self c.choices c.otNum c.out

/-! ### What a call consumes -/

/-- The pieces of the buffer of the cache that `eval_cot_random_choice` of the sender consumes,
after its checks. -/
def evalCotConsumesSend (self : OtKernel SsSender SsReceiver) (otNum : ℕ) (out : OtSendStore) :
    Except Exception (List Piece) := do
  enforce (otNum = out.size) "ot_num == out->Size()" ""
  enforce (out.isSliced = false) "!out->IsSliced()" ""
  enforce (self.inited = true) "inited_" ""
  enforce (out.type = .compact) "out->Type() == OtStoreType::Compact" ""
  match self.initOtCache with
  | some (.inl cache) =>
    let res ← ferretBootstrapSend .getDefault otNum false cache
    pure [res.2.2.1.window, res.2.2.2.window]
  | _ => throw (.enforceNotMet "std::holds_alternative<OtSendStore>(init_ot_cache_)" "")

/-- The same for the receiver. -/
def evalCotConsumesRecv (self : OtKernel SsSender SsReceiver) (otNum : ℕ) (out : OtRecvStore) :
    Except Exception (List Piece) := do
  enforce (otNum = out.size) "ot_num == out->Size()" ""
  enforce (out.isSliced = false) "!out->IsSliced()" ""
  enforce (out.type = .compact) "out->Type() == OtStoreType::Compact" ""
  enforce (self.inited = true) "inited_" ""
  match self.initOtCache with
  | some (.inr cache) =>
    let res ← ferretBootstrapRecv .getDefault otNum false cache
    pure [res.2.1.window, res.2.2.window]
  | _ => throw (.enforceNotMet "std::holds_alternative<OtRecvStore>(init_ot_cache_)" "")

/-- What a call of the sender consumes. -/
def consumesSend (self : OtKernel SsSender SsReceiver) (c : EvalCall OtSendStore) :
    Except Exception (List Piece) :=
  if c.rot then do
    enforce (c.otNum = c.out.size) "ot_num == out->Size()" ""
    enforce (c.out.isSliced = false) "!out->IsSliced()" ""
    enforce (c.out.type = .normal) "out->Type() == OtStoreType::Normal" ""
    let cot ← OtSendStore.ofNum c.otNum .compact
    evalCotConsumesSend self c.otNum cot
  else evalCotConsumesSend self c.otNum c.out

/-- What a call of the receiver consumes. -/
def consumesRecv (self : OtKernel SsSender SsReceiver) (c : EvalCall OtRecvStore) :
    Except Exception (List Piece) :=
  if c.rot then do
    enforce (c.otNum = c.out.size) "ot_num == out->Size()" ""
    enforce (c.out.isSliced = false) "!out->IsSliced()" ""
    enforce (c.out.type = .normal) "out->Type() == OtStoreType::Normal" ""
    let cot ← OtRecvStore.ofNum c.otNum .compact
    evalCotConsumesRecv self c.otNum cot
  else evalCotConsumesRecv self c.otNum c.out

/-- The window of a slice that begins at the beginning of the buffer contains its first block. -/
theorem contains_zero_of_slice_send {cot s : OtSendStore} {e : ℕ} (h : cot.slice 0 e = .ok s) :
    s.window.contains 0 = true := by
  obtain ⟨⟨huse, -⟩, -⟩ := OtSendStore.of_init h
  have hpos := s.useSize_pos
  simp [Piece.contains, SliceBase.window, huse, hpos]

theorem contains_zero_of_slice_recv {cot s : OtRecvStore} {e : ℕ} (h : cot.slice 0 e = .ok s) :
    s.window.contains 0 = true := by
  obtain ⟨⟨huse, -⟩, -⟩ := OtRecvStore.of_init h
  have hpos := s.useSize_pos
  simp [Piece.contains, SliceBase.window, huse, hpos]

variable {self : OtKernel SsSender SsReceiver} {us : List Piece}

theorem evalCotConsumesSend_zero {otNum : ℕ} {out : OtSendStore}
    (h : evalCotConsumesSend self otNum out = .ok us) : (us.any fun p => p.contains 0) = true := by
  obtain ⟨-, h⟩ := of_enforce_bind h
  obtain ⟨-, h⟩ := of_enforce_bind h
  obtain ⟨-, h⟩ := of_enforce_bind h
  obtain ⟨-, h⟩ := of_enforce_bind h
  split at h
  · next cache _ =>
    obtain ⟨res, hres, h⟩ := of_bind_eq_ok h
    obtain ⟨_, -, hres⟩ := of_bind_eq_ok hres
    obtain ⟨sizes, -, hres⟩ := of_bind_eq_ok hres
    obtain ⟨delta, -, hres⟩ := of_bind_eq_ok hres
    obtain ⟨cots, hcots, hres⟩ := of_bind_eq_ok hres
    obtain ⟨cotMpcot, hslice, hcots⟩ := of_bind_eq_ok hcots
    obtain ⟨cotSeed, -, hcots⟩ := of_bind_eq_ok hcots
    rw [← Except.ok.inj h, ← Except.ok.inj hres, ← Except.ok.inj hcots, List.any_cons,
      contains_zero_of_slice_send hslice, Bool.true_or]
  · contradiction

theorem evalCotConsumesRecv_zero {otNum : ℕ} {out : OtRecvStore}
    (h : evalCotConsumesRecv self otNum out = .ok us) : (us.any fun p => p.contains 0) = true := by
  obtain ⟨-, h⟩ := of_enforce_bind h
  obtain ⟨-, h⟩ := of_enforce_bind h
  obtain ⟨-, h⟩ := of_enforce_bind h
  obtain ⟨-, h⟩ := of_enforce_bind h
  split at h
  · next cache _ =>
    obtain ⟨res, hres, h⟩ := of_bind_eq_ok h
    obtain ⟨_, -, hres⟩ := of_bind_eq_ok hres
    obtain ⟨sizes, -, hres⟩ := of_bind_eq_ok hres
    obtain ⟨cots, hcots, hres⟩ := of_bind_eq_ok hres
    obtain ⟨cotMpcot, hslice, hcots⟩ := of_bind_eq_ok hcots
    obtain ⟨cotSeed, -, hcots⟩ := of_bind_eq_ok hcots
    rw [← Except.ok.inj h, ← Except.ok.inj hres, ← Except.ok.inj hcots, List.any_cons,
      contains_zero_of_slice_recv hslice, Bool.true_or]
  · contradiction

theorem consumesSend_zero {c : EvalCall OtSendStore} (h : consumesSend self c = .ok us) :
    (us.any fun p => p.contains 0) = true := by
  rw [consumesSend] at h
  split at h
  · obtain ⟨-, h⟩ := of_enforce_bind h
    obtain ⟨-, h⟩ := of_enforce_bind h
    obtain ⟨-, h⟩ := of_enforce_bind h
    obtain ⟨cot, -, h⟩ := of_bind_eq_ok h
    exact evalCotConsumesSend_zero h
  · exact evalCotConsumesSend_zero h

theorem consumesRecv_zero {c : EvalCall OtRecvStore} (h : consumesRecv self c = .ok us) :
    (us.any fun p => p.contains 0) = true := by
  rw [consumesRecv] at h
  split at h
  · obtain ⟨-, h⟩ := of_enforce_bind h
    obtain ⟨-, h⟩ := of_enforce_bind h
    obtain ⟨-, h⟩ := of_enforce_bind h
    obtain ⟨cot, -, h⟩ := of_bind_eq_ok h
    exact evalCotConsumesRecv_zero h
  · exact evalCotConsumesRecv_zero h

/-! ### A call that returns -/

section Returns

variable {self : OtKernel SsSender SsReceiver} (hferret : self.extAlgorithm = .ferret)
  {rnd : FerretRandom} {memory : ℕ → Uint128} {otNum : ℕ}

include hferret

/-- **A call that returns** leaves the kernel as it was, and has consumed transfers of the cache. -/
theorem evalCotSend_returns {out : OtSendStore} {res : OtKernel SsSender SsReceiver × OtSendStore}
    (h : (evalCotRandomChoiceSend (withFerret T ext rnd memory) self otNum out).Returns res) :
    res.1 = self ∧ ∃ us, evalCotConsumesSend self otNum out = .ok us := by
  obtain ⟨_, h1, h⟩ := h.of_bind
  obtain ⟨_, h2, h⟩ := h.of_bind
  obtain ⟨_, h3, h⟩ := h.of_bind
  obtain ⟨_, h4, h⟩ := h.of_bind
  rw [evalCotConsumesSend, enforce_bind (of_enforce h1.of_liftM),
    enforce_bind (of_enforce h2.of_liftM), enforce_bind (of_enforce h3.of_liftM),
    enforce_bind (of_enforce h4.of_liftM)]
  rw [hferret] at h
  rcases hcache : self.initOtCache with _ | cache | cache
  · rw [hcache] at h
    cases h
  · rw [hcache] at h
    obtain ⟨store, hstore, h⟩ := h.of_bind
    obtain ⟨b, hb, -⟩ := hstore.of_bind
    rw [h.of_ret]
    dsimp only
    rw [hb.of_liftM]
    exact ⟨rfl, _, rfl⟩
  · rw [hcache] at h
    cases h

theorem evalCotRecv_returns {choices : DynamicBitset} {out : OtRecvStore}
    {res : OtKernel SsSender SsReceiver × OtRecvStore}
    (h : (evalCotRandomChoiceRecv (withFerret T ext rnd memory) self choices otNum out).Returns
      res) : res.1 = self ∧ ∃ us, evalCotConsumesRecv self otNum out = .ok us := by
  obtain ⟨_, h1, h⟩ := h.of_bind
  obtain ⟨_, h2, h⟩ := h.of_bind
  obtain ⟨_, h3, h⟩ := h.of_bind
  obtain ⟨_, h4, h⟩ := h.of_bind
  obtain ⟨_, -, h⟩ := h.of_bind
  rw [evalCotConsumesRecv, enforce_bind (of_enforce h1.of_liftM),
    enforce_bind (of_enforce h2.of_liftM), enforce_bind (of_enforce h3.of_liftM),
    enforce_bind (of_enforce h4.of_liftM)]
  rw [hferret] at h
  rcases hcache : self.initOtCache with _ | cache | cache
  · rw [hcache] at h
    cases h
  · rw [hcache] at h
    cases h
  · rw [hcache] at h
    obtain ⟨store, hstore, h⟩ := h.of_bind
    obtain ⟨b, hb, -⟩ := hstore.of_bind
    rw [h.of_ret]
    dsimp only
    rw [hb.of_liftM]
    exact ⟨rfl, _, rfl⟩

theorem evalSend_returns {c : EvalCall OtSendStore}
    {res : OtKernel SsSender SsReceiver × OtSendStore} (h : (evalSend T ext self c).Returns res) :
    res.1 = self ∧ ∃ us, consumesSend self c = .ok us := by
  rw [evalSend] at h
  rw [consumesSend]
  split at h
  · next hrot =>
    obtain ⟨_, h1, h⟩ := h.of_bind
    obtain ⟨_, h2, h⟩ := h.of_bind
    obtain ⟨_, h3, h⟩ := h.of_bind
    obtain ⟨cot, hcot, h⟩ := h.of_bind
    obtain ⟨cots, hcots, h⟩ := h.of_bind
    obtain ⟨rot, -, h⟩ := h.of_bind
    rw [if_pos hrot, enforce_bind (of_enforce h1.of_liftM), enforce_bind (of_enforce h2.of_liftM),
      enforce_bind (of_enforce h3.of_liftM), hcot.of_liftM, h.of_ret]
    have hcall := evalCotSend_returns T ext hferret hcots
    exact hcall
  · next hrot =>
    rw [if_neg hrot]
    exact evalCotSend_returns T ext hferret h

theorem evalRecv_returns {c : EvalCall OtRecvStore}
    {res : OtKernel SsSender SsReceiver × OtRecvStore} (h : (evalRecv T ext self c).Returns res) :
    res.1 = self ∧ ∃ us, consumesRecv self c = .ok us := by
  rw [evalRecv] at h
  rw [consumesRecv]
  split at h
  · next hrot =>
    obtain ⟨_, h1, h⟩ := h.of_bind
    obtain ⟨_, h2, h⟩ := h.of_bind
    obtain ⟨_, h3, h⟩ := h.of_bind
    obtain ⟨cot, hcot, h⟩ := h.of_bind
    obtain ⟨cots, hcots, h⟩ := h.of_bind
    obtain ⟨rot, -, h⟩ := h.of_bind
    rw [if_pos hrot, enforce_bind (of_enforce h1.of_liftM), enforce_bind (of_enforce h2.of_liftM),
      enforce_bind (of_enforce h3.of_liftM), hcot.of_liftM, h.of_ret]
    have hcall := evalCotRecv_returns T ext hferret hcots
    exact hcall
  · next hrot =>
    rw [if_neg hrot]
    exact evalCotRecv_returns T ext hferret h

end Returns

/-! ### Sequences of calls -/

section Run

variable {κ Store : Type} (eval : κ → EvalCall Store → Party (κ × Store))
  (consumes : κ → EvalCall Store → Except Exception (List Piece))

/-- A sequence of calls, each with the kernel before it. A call returns, whatever the messages were
that have made it do so, or it fails and leaves the kernel as it was. -/
inductive EvalRun : κ → List (κ × EvalCall Store) → κ → Prop
  | nil (k) : EvalRun k [] k
  | returned {k c res l k'} : (eval k c).Returns res → EvalRun res.1 l k' →
      EvalRun k ((k, c) :: l) k'
  | failed {k c l k'} : EvalRun k l k' → EvalRun k ((k, c) :: l) k'

/-- The call gets as far as the bootstrap. -/
def bootstraps (x : κ × EvalCall Store) : Bool := (consumes x.1 x.2).isOk

/-- The call consumes transfer `i`. -/
def consumed (i : ℕ) (x : κ × EvalCall Store) : Bool :=
  match consumes x.1 x.2 with
  | .ok us => us.any fun p => p.contains i
  | .error _ => false

theorem consumed_of_ok {k : κ} {c : EvalCall Store} {us : List Piece} (h : consumes k c = .ok us)
    (i : ℕ) : consumed consumes i (k, c) = us.any fun p => p.contains i := by
  rw [consumed, h]

theorem bootstraps_of_consumed {i : ℕ} {x : κ × EvalCall Store}
    (h : consumed consumes i x = true) : bootstraps consumes x = true := by
  rw [consumed] at h
  split at h
  · next us hus =>
    rw [bootstraps, hus]
    rfl
  · contradiction

variable {eval consumes}

/-- **At most one bootstrap.** If every bootstrap consumes the first transfer, then no transfer is
consumed twice exactly if at most one call gets as far as the bootstrap. -/
theorem consumed_le_one_iff
    (hzero : ∀ k c us, consumes k c = .ok us → (us.any fun p => p.contains 0) = true)
    (l : List (κ × EvalCall Store)) :
    (∀ i, l.countP (consumed consumes i) ≤ 1) ↔ l.countP (bootstraps consumes) ≤ 1 := by
  constructor
  · intro h
    refine (List.countP_mono_left fun x _ hx => ?_).trans (h 0)
    rw [bootstraps] at hx
    cases hus : consumes x.1 x.2 with
    | ok us => exact (consumed_of_ok consumes hus 0).trans (hzero x.1 x.2 us hus)
    | error e =>
      rw [hus] at hx
      contradiction
  · intro h i
    exact (List.countP_mono_left fun x _ => bootstraps_of_consumed consumes).trans h

/-- If a call that returns leaves the kernel as it was, then so does a sequence of calls. -/
theorem EvalRun.kernel_eq {k k' : κ} (hkeep : ∀ c res, (eval k c).Returns res → res.1 = k)
    {l : List (κ × EvalCall Store)} (h : EvalRun eval k l k') : k' = k ∧ ∀ x ∈ l, x.1 = k := by
  induction h with
  | nil k => exact ⟨rfl, by simp⟩
  | @returned k c res l k' hret _ ih =>
    have hres := hkeep c res hret
    rw [hres] at ih
    obtain ⟨rfl, hl⟩ := ih hkeep
    exact ⟨rfl, List.forall_mem_cons.2 ⟨rfl, hl⟩⟩
  | failed _ ih =>
    obtain ⟨rfl, hl⟩ := ih hkeep
    exact ⟨rfl, List.forall_mem_cons.2 ⟨rfl, hl⟩⟩

theorem EvalRun.countP_bootstraps {k k' : κ} (hkeep : ∀ c res, (eval k c).Returns res → res.1 = k)
    {l : List (κ × EvalCall Store)} (h : EvalRun eval k l k') :
    l.countP (bootstraps consumes) = l.countP fun x => bootstraps consumes (k, x.2) :=
  List.countP_congr fun x hx => by rw [← (h.kernel_eq hkeep).2 x hx]

end Run

/-- **No transfer is used twice.** Over every sequence of evaluations of a Ferret kernel, each
transfer of the cache is consumed by at most one bootstrap if and only if at most one of the calls
passes the checks before the bootstrap. -/
theorem evalRun_consumed_iff {k k' : OtKernel SsSender SsReceiver}
    (hferret : k.extAlgorithm = .ferret) :
    (∀ l, EvalRun (evalSend T ext) k l k' →
      ((∀ i, l.countP (consumed consumesSend i) ≤ 1) ↔
        (l.countP fun x => bootstraps consumesSend (k, x.2)) ≤ 1)) ∧
    ∀ l, EvalRun (evalRecv T ext) k l k' →
      ((∀ i, l.countP (consumed consumesRecv i) ≤ 1) ↔
        (l.countP fun x => bootstraps consumesRecv (k, x.2)) ≤ 1) := by
  refine ⟨fun l h => ?_, fun l h => ?_⟩
  · rw [← h.countP_bootstraps fun c res hres => (evalSend_returns T ext hferret hres).1]
    exact consumed_le_one_iff (fun _ _ _ => consumesSend_zero) l
  · rw [← h.countP_bootstraps fun c res hres => (evalRecv_returns T ext hferret hres).1]
    exact consumed_le_one_iff (fun _ _ _ => consumesRecv_zero) l

/-- An extension that writes an odd `delta` into the store of the sender. -/
def mockExtension : OtExtension Unit Unit where
  ferretOtExtSend := fun cache _ => .ret cache
  ferretOtExtRecv := fun cache _ => .ret cache
  send := fun core out => .ret (core, { out with delta := 1 })
  recv := fun core _ out => .ret (core, out)

/-- A call for 2560 transfers. -/
def mockCall (out : OtSendStore) : EvalCall OtSendStore :=
  ⟨false, 2560, out, default, fun _ => 0, .ofSize 0⟩

theorem initSend_returns : ∃ cache, (initSend mockExtension (pure ())
      ⟨.ferret, false, none, none⟩).Returns ⟨.ferret, true, some (.inl cache), none⟩ ∧
    cache.type = .compact ∧ cache.delta = 1 ∧ cache.size = 468640 := by
  obtain ⟨cache, hcache, hsliced, hsize, htype⟩ :=
    OtSendStore.ofNum_compact (show 0 < 468640 by omega)
  refine ⟨{ cache with delta := 1 }, ?_, htype, rfl, hsize⟩
  have hhelper : ferretCotHelper .getDefault false = .ok 468640 := by decide +kernel
  refine (returns_of_ok hhelper).bind (Returns.bind (.ret ()) ((returns_of_ok hcache).bind ?_))
  refine Returns.bind (a := (⟨.softSpoken, true, none, some (.inl ())⟩, { cache with delta := 1 }))
    ?_ (.ret _)
  refine (returns_of_ok (enforce_of_pos hsize.symm _ _)).bind ?_
  refine (returns_of_ok (enforce_of_pos hsliced _ _)).bind (Returns.bind (.ret ()) ?_)
  exact (returns_of_ok (enforce_of_pos htype _ _)).bind (.ret _)

theorem evalSend_returns_of_cache {cache out : OtSendStore} (htype : cache.type = .compact)
    (hdelta : cache.delta = 1) (hsize : cache.size = 468640)
    (hout : OtSendStore.ofNum 2560 .compact = .ok out) :
    ∃ res, (evalSend T mockExtension ⟨.ferret, true, some (.inl cache), none⟩
      (mockCall out)).Returns res := by
  obtain ⟨out', hout', hsliced, hosize, hotype⟩ :=
    OtSendStore.ofNum_compact (show 0 < 2560 by omega)
  obtain rfl : out' = out := Except.ok.inj (hout'.symm.trans hout)
  obtain ⟨res, hres⟩ := ferretOtExtSend_returns htype (by rw [hdelta]; decide)
    (by rw [OtSendStore.useSize_eq_size htype]; omega) hsize.ge T (le_refl 2560) (by omega) default
    fun _ => 0
  refine ⟨(⟨.ferret, true, some (.inl cache), none⟩, res), ?_⟩
  refine (returns_of_ok (enforce_of_pos hosize.symm _ _)).bind ?_
  refine (returns_of_ok (enforce_of_pos hsliced _ _)).bind (Returns.bind (.ret ()) ?_)
  exact (returns_of_ok (enforce_of_pos hotype _ _)).bind (hres.bind (.ret _))

/-- A kernel after `init` and a call of it that returns: the call leaves the kernel as it was, and
consumes the first transfer of the cache. -/
theorem exists_evalSend_returns : ∃ (k : OtKernel Unit Unit) (c : EvalCall OtSendStore),
    k.extAlgorithm = .ferret ∧
      (initSend mockExtension (pure ()) ⟨.ferret, false, none, none⟩).Returns k ∧
      (∃ res, (evalSend default mockExtension k c).Returns res ∧ res.1 = k) ∧
      consumed consumesSend 0 (k, c) = true := by
  obtain ⟨cache, hinit, htype, hdelta, hsize⟩ := initSend_returns
  obtain ⟨out, hout, -⟩ := OtSendStore.ofNum_compact (show 0 < 2560 by omega)
  obtain ⟨res, hres⟩ := evalSend_returns_of_cache default htype hdelta hsize hout
  obtain ⟨hkernel, us, hus⟩ := evalSend_returns default mockExtension rfl hres
  exact ⟨_, mockCall out, rfl, hinit, ⟨res, hres, hkernel⟩,
    (consumed_of_ok consumesSend hus 0).trans (consumesSend_zero hus)⟩

/-- **One call** of a kernel after `init` that returns: it consumes the first transfer, and none
twice. -/
theorem evalRun_consumed_one : ∃ (k : OtKernel Unit Unit) (c : EvalCall OtSendStore),
    (initSend mockExtension (pure ()) ⟨.ferret, false, none, none⟩).Returns k ∧
      EvalRun (evalSend default mockExtension) k [(k, c)] k ∧
      [(k, c)].countP (consumed consumesSend 0) = 1 ∧
      ∀ i, [(k, c)].countP (consumed consumesSend i) ≤ 1 := by
  obtain ⟨k, c, hferret, hinit, ⟨res, hres, hkernel⟩, hconsumed⟩ := exists_evalSend_returns
  have hrun : EvalRun (evalSend default mockExtension) k [(k, c)] k := by
    refine .returned hres ?_
    rw [hkernel]
    exact .nil _
  refine ⟨k, c, hinit, hrun, List.countP_cons_of_pos hconsumed, ?_⟩
  exact ((evalRun_consumed_iff default mockExtension hferret).1 _ hrun).2 List.countP_le_length

/-- **Two calls** of a kernel after `init` that both return, and both consume the first transfer. -/
theorem evalRun_consumed_two : ∃ (k : OtKernel Unit Unit) (c : EvalCall OtSendStore),
    (initSend mockExtension (pure ()) ⟨.ferret, false, none, none⟩).Returns k ∧
      (∃ res, (evalSend default mockExtension k c).Returns res) ∧
      EvalRun (evalSend default mockExtension) k [(k, c), (k, c)] k ∧
      [(k, c), (k, c)].countP (consumed consumesSend 0) = 2 := by
  obtain ⟨k, c, -, hinit, ⟨res, hres, hkernel⟩, hconsumed⟩ := exists_evalSend_returns
  refine ⟨k, c, hinit, ⟨res, hres⟩, ?_, ?_⟩
  · refine .returned hres ?_
    rw [hkernel]
    refine .returned hres ?_
    rw [hkernel]
    exact .nil _
  · rw [List.countP_cons_of_pos hconsumed, List.countP_cons_of_pos hconsumed, List.countP_nil]

end Yacl.Crypto.OtKernel
