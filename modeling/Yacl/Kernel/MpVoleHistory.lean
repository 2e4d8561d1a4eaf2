import Yacl.Kernel.MpVole

/-!
# Sequences of multi-point vector OLEs

A pair of `MpVoleSender` and `MpVoleReceiver` can be set up and run again and again. Both objects
remember whether they were set up and whether they have finished, and a run needs an object that was
set up and has not finished. `OneTimeSetup` of the sender starts over, but `OneTimeSetup` of the
receiver leaves `is_finish_` as it is.

The two objects are driven **in lock step** (`LockStep`): both are set up with the two halves of the
same vector OLEs, or one sends and the other receives. A run goes on until no party can move; then
each of them has come to the end of its call, or it has thrown, or it waits for a message that never
comes, which ends in an exception of the link. Which of these happened is part of the step. The
steps tell what the objects remember (`VolePhase.after`), and with it where the two part: at a run
after a completed run and a new setup, and after a run that only one of them has finished.
-/

open Loop TwoParty Proc Yacl.Math

namespace Yacl.Crypto

/-! ### Steps -/

/-- What both parties give to `OneTimeSetup`: the two halves of some vector OLEs. -/
structure VoleSetup (t k : ℕ) where
  delta : BitVec (8 * k)
  preC : List (BitVec (8 * k))
  preA : List (BitVec (8 * t))
  preB : List (BitVec (8 * k))
  length_preA : preA.length = preC.length
  length_preB : preB.length = preC.length

/-- What both parties give to a run, with spans of one size. -/
structure VoleRun (t k : ℕ) where
  sendOt : OtSendStore
  recvOt : OtRecvStore
  seed : ℕ → Uint128
  syncSeed : Uint128
  c : List (BitVec (8 * k))
  a : List (BitVec (8 * t))
  b : List (BitVec (8 * k))
  fixedIndex : Bool
  length_a : a.length = c.length
  length_b : b.length = c.length

/-- A step of both parties. -/
inductive VoleStep (t k : ℕ) where
  | setup (x : VoleSetup t k)
  /-- A run, and whether `Send` and `Recv` come to their ends in it. -/
  | run (x : VoleRun t k) (sent received : Bool)

/-- The two objects. -/
structure VolePair (t k : ℕ) where
  sender : MpVoleSender k
  receiver : MpVoleReceiver t k

variable {t k : ℕ} {σ : Type}

/-- `Send` accepts the call. -/
def MpVoleSender.Ready (self : MpVoleSender k) (c : List (BitVec (8 * k))) : Prop :=
  self.isSetup = true ∧ self.isFinish = false ∧ self.param.mpVoleSize ≤ c.length

/-- `Recv` accepts the call. -/
def MpVoleReceiver.Ready (self : MpVoleReceiver t k) (a : List (BitVec (8 * t)))
    (b : List (BitVec (8 * k))) : Prop :=
  self.isSetup = true ∧ self.isFinish = false ∧ self.param.mpVoleSize ≤ a.length ∧
    self.param.mpVoleSize ≤ b.length

/-- Both objects accept the step, or both reject it. What becomes of a run does not matter here. -/
def VolePair.Agree (s : VolePair t k) : VoleStep t k → Prop
  | .setup x => (s.sender.oneTimeSetup x.delta x.preC).isOk =
      (s.receiver.oneTimeSetup x.preA x.preB).isOk
  | .run x _ _ => s.sender.Ready x.c ↔ s.receiver.Ready x.a x.b

section Programs

variable (T : Tools) (G : VoleGf t k) (M : MpfssMem k σ)

/-- **A step in lock step.** A setup that is rejected leaves its object as it was. In a run both
programs go on until no one can move; a program that does not come to its end leaves its object as
it was, but for the indexes that `MPFSS` may have set. -/
inductive LockStep : VolePair t k → VoleStep t k → VolePair t k → Prop
  | setup (s : VolePair t k) (x : VoleSetup t k) :
      LockStep s (.setup x)
        ⟨(s.sender.oneTimeSetup x.delta x.preC).toOption.getD s.sender,
          (s.receiver.oneTimeSetup x.preA x.preB).toOption.getD s.receiver⟩
  | run {s : VolePair t k} {x : VoleRun t k} {n : ℕ} {c} (indexes : List ℕ)
      (h : Run n (.start (s.sender.send T G M x.sendOt x.seed x.c x.fixedIndex)
        (s.receiver.recv T G M x.recvOt x.syncSeed x.a x.b x.fixedIndex)) c)
      (hstuck : c.Stuck) :
      LockStep s (.run x c.left.result?.isSome c.right.result?.isSome)
        ⟨(c.left.result?.map Prod.fst).getD s.sender, (c.right.result?.map Prod.fst).getD
          { s.receiver with param := s.receiver.param.withIndexes indexes }⟩

/-- A sequence of steps of new objects; the last step comes first. -/
inductive History (p : MpFssParam) : List (VoleStep t k) → VolePair t k → Prop
  | start : History p [] ⟨.make p, .make p⟩
  | step {steps : List (VoleStep t k)} {s s' : VolePair t k} {x : VoleStep t k} :
      History p steps s → LockStep T G M s x s' → History p (x :: steps) s'

variable {T G M}

theorem MpVoleSender.of_returns_send {self : MpVoleSender k} {cot : OtSendStore}
    {seed : ℕ → Uint128} {c : List (BitVec (8 * k))} {fixedIndex : Bool}
    {res : MpVoleSender k × List (BitVec (8 * k))}
    (h : (self.send T G M cot seed c fixedIndex).Returns res) :
    self.Ready c ∧ res.1 = { self with isFinish := true } := by
  obtain ⟨_, hsetup, h⟩ := h.of_bind
  obtain ⟨_, hfinish, h⟩ := h.of_bind
  obtain ⟨_, hlen, h⟩ := h.of_bind
  obtain ⟨c', -, h⟩ := h.of_bind
  obtain ⟨_, -, h⟩ := h.of_bind
  refine ⟨⟨of_enforce hsetup.of_liftM, of_enforce hfinish.of_liftM, of_enforce hlen.of_liftM⟩, ?_⟩
  rw [h.of_ret]

theorem MpVoleReceiver.of_returns_recv {self : MpVoleReceiver t k} {cot : OtRecvStore}
    {syncSeed : Uint128} {a : List (BitVec (8 * t))} {b : List (BitVec (8 * k))} {fixedIndex : Bool}
    {res : MpVoleReceiver t k × List (BitVec (8 * t)) × List (BitVec (8 * k))}
    (h : (self.recv T G M cot syncSeed a b fixedIndex).Returns res) :
    self.Ready a b ∧ ∃ l,
      res.1 = { self with param := self.param.withIndexes l, isFinish := true } := by
  obtain ⟨_, hsetup, h⟩ := h.of_bind
  obtain ⟨_, hfinish, h⟩ := h.of_bind
  obtain ⟨_, hlenA, h⟩ := h.of_bind
  obtain ⟨_, hlenB, h⟩ := h.of_bind
  obtain ⟨⟨b', l⟩, -, h⟩ := h.of_bind
  obtain ⟨x, -, h⟩ := h.of_bind
  obtain ⟨_, -, h⟩ := h.of_bind
  refine ⟨⟨of_enforce hsetup.of_liftM, of_enforce hfinish.of_liftM, of_enforce hlenA.of_liftM,
    of_enforce hlenB.of_liftM⟩, l, ?_⟩
  rw [h.of_ret]

end Programs

/-! ### Phases -/

/-- What the steps tell about the two objects. -/
structure VolePhase where
  /-- Some `OneTimeSetup` was accepted. -/
  isSetup : Bool
  /-- `Send` has come to its end since the last of them. -/
  sent : Bool
  /-- `Recv` has come to its end at some time. -/
  received : Bool

namespace VolePhase

/-- The phase after a step. -/
def next (p : MpFssParam) (φ : VolePhase) : VoleStep t k → VolePhase
  | .setup x =>
    if x.preC.length = p.baseVoleNum then { φ with isSetup := true, sent := false } else φ
  | .run _ sent received => ⟨φ.isSetup, φ.sent || sent, φ.received || received⟩

/-- The phase after some steps, of which the last one comes first. -/
def after (p : MpFssParam) : List (VoleStep t k) → VolePhase
  | [] => ⟨false, false, false⟩
  | x :: steps => (after p steps).next p x

end VolePhase

/-- **A regular step**: when a run with vectors of the right size follows a setup, then `Send` has
come to its end since the last setup exactly if `Recv` has come to its end at some time. -/
def VoleStep.Regular (p : MpFssParam) (φ : VolePhase) : VoleStep t k → Prop
  | .setup _ => True
  | .run x _ _ => p.mpVoleSize ≤ x.c.length → φ.isSetup → φ.sent = φ.received

/-- **The objects are in a phase.** A run with fixed indexes may have changed the indexes of the
receiver. -/
structure VolePair.In (p : MpFssParam) (φ : VolePhase) (s : VolePair t k) : Prop where
  sender_param : s.sender.param = p
  receiver_param : ∃ l, s.receiver.param = p.withIndexes l
  sender_flags : s.sender.isSetup = φ.isSetup ∧ s.sender.isFinish = φ.sent
  receiver_flags : s.receiver.isSetup = φ.isSetup ∧ s.receiver.isFinish = φ.received

namespace VolePair.In

variable {p : MpFssParam} {φ : VolePhase} {s s' : VolePair t k}

theorem sender_ready (h : s.In p φ) {c : List (BitVec (8 * k))} :
    s.sender.Ready c ↔ φ.isSetup ∧ φ.sent = false ∧ p.mpVoleSize ≤ c.length := by
  rw [MpVoleSender.Ready, h.sender_param, h.sender_flags.1, h.sender_flags.2]

theorem receiver_ready (h : s.In p φ) {a : List (BitVec (8 * t))} {b : List (BitVec (8 * k))}
    (hlen : a.length = b.length) :
    s.receiver.Ready a b ↔ φ.isSetup ∧ φ.received = false ∧ p.mpVoleSize ≤ b.length := by
  obtain ⟨l, hl⟩ := h.receiver_param
  have hsize : s.receiver.param.mpVoleSize = p.mpVoleSize := by rw [hl]; rfl
  rw [MpVoleReceiver.Ready, hsize, hlen, and_self, h.receiver_flags.1, h.receiver_flags.2]

theorem sender_setup (h : s.In p φ) (delta : BitVec (8 * k)) (preC : List (BitVec (8 * k))) :
    s.sender.oneTimeSetup delta preC = if preC.length = p.baseVoleNum then
      .ok { s.sender with delta := delta, preC := preC, isSetup := true, isFinish := false }
      else .error (.enforceNotMet "param_.base_vole_num_ == pre_c.size()" "") := by
  have hnum : s.sender.param.baseVoleNum = p.baseVoleNum := by rw [h.sender_param]
  rw [MpVoleSender.oneTimeSetup, hnum]
  by_cases hlen : preC.length = p.baseVoleNum
  · rw [if_pos hlen, enforce_of_pos hlen.symm]
    rfl
  · rw [if_neg hlen, enforce_of_neg (Ne.symm hlen)]
    rfl

theorem receiver_setup (h : s.In p φ) {preA : List (BitVec (8 * t))} {preB : List (BitVec (8 * k))}
    (hlen : preA.length = preB.length) :
    s.receiver.oneTimeSetup preA preB = if preB.length = p.baseVoleNum then
      .ok { s.receiver with preA := preA, preB := preB, isSetup := true }
      else .error (.enforceNotMet "param_.base_vole_num_ == pre_a.size()" "") := by
  obtain ⟨l, hl⟩ := h.receiver_param
  have hnum : s.receiver.param.baseVoleNum = p.baseVoleNum := by rw [hl]; rfl
  rw [MpVoleReceiver.oneTimeSetup, hnum, hlen]
  by_cases hlen : preB.length = p.baseVoleNum
  · rw [if_pos hlen, enforce_bind hlen.symm, enforce_of_pos hlen.symm]
    rfl
  · rw [if_neg hlen, enforce_of_neg (Ne.symm hlen)]
    rfl

/-- The sender after a run: `res` is what `Send` has returned, if it has come to its end. -/
theorem sender_run (h : s.In p φ) {res : Option (MpVoleSender k × List (BitVec (8 * k)))}
    (hres : ∀ r ∈ res, r.1 = { s.sender with isFinish := true }) :
    ((res.map Prod.fst).getD s.sender).param = p ∧
      ((res.map Prod.fst).getD s.sender).isSetup = φ.isSetup ∧
      ((res.map Prod.fst).getD s.sender).isFinish = (φ.sent || res.isSome) := by
  cases res with
  | none =>
    rw [Option.isSome_none, Bool.or_false]
    exact ⟨h.sender_param, h.sender_flags⟩
  | some r =>
    rw [Option.map_some, Option.getD_some, hres r rfl, Option.isSome_some, Bool.or_true]
    exact ⟨h.sender_param, h.sender_flags.1, rfl⟩

/-- The receiver after a run, which leaves `other` if `Recv` does not come to its end. -/
theorem receiver_run (h : s.In p φ) {other : MpVoleReceiver t k} {indexes : List ℕ}
    (hother : other = { s.receiver with param := s.receiver.param.withIndexes indexes })
    {res : Option (MpVoleReceiver t k × List (BitVec (8 * t)) × List (BitVec (8 * k)))}
    (hres : ∀ r ∈ res, ∃ l,
      r.1 = { s.receiver with param := s.receiver.param.withIndexes l, isFinish := true }) :
    (∃ l, ((res.map Prod.fst).getD other).param = p.withIndexes l) ∧
      ((res.map Prod.fst).getD other).isSetup = φ.isSetup ∧
      ((res.map Prod.fst).getD other).isFinish = (φ.received || res.isSome) := by
  obtain ⟨l₀, hl₀⟩ := h.receiver_param
  cases res with
  | none =>
    rw [Option.isSome_none, Bool.or_false, hother]
    exact ⟨⟨indexes, by rw [hl₀]; rfl⟩, h.receiver_flags⟩
  | some r =>
    obtain ⟨l, hself⟩ := hres r rfl
    rw [Option.map_some, Option.getD_some, hself, Option.isSome_some, Bool.or_true]
    exact ⟨⟨l, by rw [hl₀]; rfl⟩, h.receiver_flags.1, rfl⟩

/-- **A step leads to the next phase.** -/
theorem step {T : Tools} {G : VoleGf t k} {M : MpfssMem k σ} {x : VoleStep t k} (h : s.In p φ)
    (hstep : LockStep T G M s x s') : s'.In p (φ.next p x) := by
  cases hstep with
  | setup x =>
    rw [h.sender_setup, h.receiver_setup (x.length_preA.trans x.length_preB.symm), x.length_preB,
      VolePhase.next]
    by_cases hfits : x.preC.length = p.baseVoleNum
    · rw [if_pos hfits, if_pos hfits, if_pos hfits]
      exact ⟨h.sender_param, h.receiver_param, ⟨rfl, rfl⟩, rfl, h.receiver_flags.2⟩
    · rw [if_neg hfits, if_neg hfits, if_neg hfits]
      exact h
  | @run x n c indexes hrun hstuck =>
    obtain ⟨hleft, hright⟩ := hrun.returns
    obtain ⟨hparam, hflags⟩ := h.sender_run fun r hr =>
      (MpVoleSender.of_returns_send (hleft r (returns_of_result? hr))).2
    obtain ⟨hparam', hflags'⟩ := h.receiver_run (rfl : _ = { s.receiver with
        param := s.receiver.param.withIndexes indexes }) fun r hr =>
      (MpVoleReceiver.of_returns_recv (hright r (returns_of_result? hr))).2
    exact ⟨hparam, hparam', hflags, hflags'⟩

theorem agree_iff (h : s.In p φ) (x : VoleStep t k) : s.Agree x ↔ x.Regular p φ := by
  cases x with
  | setup x =>
    rw [VolePair.Agree, h.sender_setup,
      h.receiver_setup (x.length_preA.trans x.length_preB.symm), x.length_preB]
    refine iff_of_true ?_ trivial
    split <;> rfl
  | run x sent received =>
    rw [VolePair.Agree, VoleStep.Regular, h.sender_ready,
      h.receiver_ready (x.length_a.trans x.length_b.symm), x.length_b]
    cases φ.isSetup <;> cases φ.sent <;> cases φ.received <;> simp

end VolePair.In

theorem History.in_after {T : Tools} {G : VoleGf t k} {M : MpfssMem k σ} {p : MpFssParam}
    {steps : List (VoleStep t k)} {s : VolePair t k} (h : History T G M p steps s) :
    s.In p (.after p steps) := by
  induction h with
  | start => exact ⟨rfl, ⟨p.indexes, rfl⟩, ⟨rfl, rfl⟩, rfl, rfl⟩
  | step _ hstep ih => exact ih.step hstep

/-- **The two objects accept and reject the same steps** as long as the steps are regular. A run
that follows a completed run and a new setup is not, as `OneTimeSetup` enables the sender again but
not the receiver; neither is a run after one that only one of the objects has finished. -/
theorem voleAgree_iff {T : Tools} {G : VoleGf t k} {M : MpfssMem k σ} {p : MpFssParam}
    {steps : List (VoleStep t k)} {s : VolePair t k} (h : History T G M p steps s)
    (x : VoleStep t k) : s.Agree x ↔ x.Regular p (.after p steps) :=
  h.in_after.agree_iff x

/-- A setup with zeros for two bins. -/
def voleSetupZero : VoleSetup 16 16 := ⟨0, [0, 0], [0, 0], [0, 0], rfl, rfl⟩

theorem exists_history_completed : ∃ (x : VoleRun 16 16) (s : VolePair 16 16),
    mpFssParamFive.mpVoleSize ≤ x.c.length ∧
      History default VoleTypes.f128.gf mpfssMem128 mpFssParamFive
        [.run x true true, .setup voleSetupZero] s := by
  obtain ⟨c, hc, -⟩ := mpFssParamFive.genChoices_eq rfl (by decide)
  obtain ⟨r, s, hots, hchoice⟩ := exists_mpfssOts mpFssParamFive c.bit
  let run : VoleRun 16 16 := ⟨s, r, fun _ => 0, 0, List.replicate 5 0, List.replicate 5 0,
    List.replicate 5 0, false, rfl, rfl⟩
  have hzero : ∀ n i, ([0, 0] : List (BitVec n)).getD i 0 = 0#n := by
    rintro n (_ | _ | i) <;> rfl
  have hcompletes := mpVole_completes default .f128 hots rfl (by decide) (by decide)
    (fun h : false = true => nomatch h) (fun i _ => by
      rw [hzero, hzero, BinaryField.elem_zero, BinaryField.elem_zero, zero_mul, zero_add])
    (show (MpVoleSender.make (mpFssParamFive.withIndexes [1, 2])).oneTimeSetup 0 [0, 0] = .ok _
      from rfl)
    rfl
    run.seed run.syncSeed run.c run.b run.a rfl (by decide) (by decide) (show 5 ≤ 5 by decide)
    (show 5 ≤ 5 by decide) (show 5 ≤ 5 by decide)
  obtain ⟨n, a, b, hrun, -⟩ | ⟨hfalse, -⟩ := hcompletes.session
  · have hstart : History default VoleTypes.f128.gf mpfssMem128 mpFssParamFive
        [.setup voleSetupZero] _ := .step .start (.setup _ voleSetupZero)
    exact ⟨run, _, show mpFssParamFive.mpVoleSize ≤ 5 by decide,
      hstart.step (.run [] hrun (Config.stuck_of_ret a b [] []))⟩
  · exact hfalse.elim

/-- Both objects reject another run after a completed one. -/
theorem voleAgree_completed : ∃ (steps : List (VoleStep 16 16)) (s : VolePair 16 16)
    (x : VoleStep 16 16), steps.length = 2 ∧
      History default VoleTypes.f128.gf mpfssMem128 mpFssParamFive steps s ∧ s.Agree x := by
  obtain ⟨x, s, -, h⟩ := exists_history_completed
  exact ⟨_, s, .run x false false, rfl, h, (voleAgree_iff h _).mpr fun _ _ => rfl⟩

/-- A setup, a run, another setup, and the sender is ready for another run, but the receiver is
not. -/
theorem not_voleAgree_again : ∃ (steps : List (VoleStep 16 16)) (s : VolePair 16 16)
    (x : VoleStep 16 16),
    History default VoleTypes.f128.gf mpfssMem128 mpFssParamFive steps s ∧ ¬s.Agree x := by
  obtain ⟨x, s, hfits, h⟩ := exists_history_completed
  have hagain := h.step (.setup _ voleSetupZero)
  refine ⟨_, _, .run x true false, hagain, fun hagree => ?_⟩
  exact Bool.false_ne_true ((hagain.in_after.agree_iff _).mp hagree hfits rfl)

end Yacl.Crypto
