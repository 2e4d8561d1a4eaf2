import Mathlib.Tactic
import Yacl.Lib.Loop

/-!
# Two parties over a pair of channels

A **process** is the code of one party: it returns, throws, sends a message and goes on, or
waits for a message. Two processes run against each other over two first-in first-out
channels; sending never waits. `Step` is one step of one party, so that a `Run` is an
arbitrary interleaving.

Processes are deterministic, and the steps of the two parties commute: a run that has ended
cannot be escaped from by any other interleaving (`Run.complete`). It is therefore enough to
follow **one** convenient interleaving, which is what a `Session` is: it can be put together
from the sessions of the parts of the two programs (`Session.bind`, `Session.forLoop`), and
what it says holds of **every** interleaving (`Session.completes`, `Session.partial`).

`Session fail P Q R` lets the two parties either return results that are related by `R`, or,
only if `fail` holds, reach a state in which one of them has thrown.
-/

namespace TwoParty

variable {μ ε α β γ δ : Type}

/-- The code of one party, as a tree: what it does next depends on the messages that it has
received. -/
inductive Proc (μ ε α : Type) where
  /-- Return a result. -/
  | ret (a : α)
  /-- Throw an exception. -/
  | throw (e : ε)
  /-- Send a message and go on. -/
  | send (m : μ) (next : Proc μ ε α)
  /-- Wait for a message and go on with it. -/
  | recv (next : μ → Proc μ ε α)

namespace Proc

/-- Run a process, then another one with its result. -/
def bind : Proc μ ε α → (α → Proc μ ε β) → Proc μ ε β
  | ret a, f => f a
  | throw e, _ => throw e
  | send m p, f => send m (p.bind f)
  | recv k, f => recv fun m => (k m).bind f

instance : Monad (Proc μ ε) where
  pure := ret
  bind := bind

theorem bind_ret (p : Proc μ ε α) : p.bind ret = p := by
  induction p with
  | ret a => rfl
  | throw e => rfl
  | send m p ih => rw [bind, ih]
  | recv k ih => rw [bind, funext ih]

/-- Send one message. -/
def sendMsg (m : μ) : Proc μ ε Unit := send m (ret ())

/-- Receive one message. -/
def recvMsg : Proc μ ε μ := recv ret

/-- A computation without messages. -/
def lift : Except ε α → Proc μ ε α
  | .ok a => ret a
  | .error e => throw e

instance : MonadLift (Except ε) (Proc μ ε) := ⟨lift⟩

@[simp]
theorem pure_bind (a : α) (f : α → Proc μ ε β) : ((ret a : Proc μ ε α) >>= f) = f a := rfl

@[simp]
theorem liftM_ok (a : α) : (liftM (Except.ok a : Except ε α) : Proc μ ε α) = ret a := rfl

/-- A local computation that succeeds is a step of its own. Unlike the two lemmas before it, this
one rewrites without comparing the computation with the rest of the program. -/
theorem bind_of_ok {x : Except ε α} {a : α} (h : x = .ok a) (f : α → Proc μ ε β) :
    ((liftM x : Proc μ ε α) >>= f) = f a := by
  rw [h]
  rfl

theorem bind_of_error {x : Except ε α} {e : ε} (h : x = .error e) (f : α → Proc μ ε β) :
    ((liftM x : Proc μ ε α) >>= f) = throw e := by
  rw [h]
  rfl

end Proc

/-! ### Interleavings -/

/-- The two parties, and the messages in flight from the left to the right party and from the
right to the left one. -/
structure Config (μ ε α β : Type) where
  left : Proc μ ε α
  right : Proc μ ε β
  toRight : List μ
  toLeft : List μ

/-- Two parties that have not done anything yet. -/
def Config.start (p : Proc μ ε α) (q : Proc μ ε β) : Config μ ε α β := ⟨p, q, [], []⟩

/-- Two parties that have returned, with no message left in flight. -/
def Config.done (a : α) (b : β) : Config μ ε α β := ⟨.ret a, .ret b, [], []⟩

/-- One of the parties has thrown. -/
def Config.Failed (c : Config μ ε α β) : Prop :=
  (∃ e, c.left = .throw e) ∨ ∃ e, c.right = .throw e

/-- One step of one party. -/
inductive Step : Config μ ε α β → Config μ ε α β → Prop
  | leftSend (m p q r l) : Step ⟨.send m p, q, r, l⟩ ⟨p, q, r ++ [m], l⟩
  | leftRecv (k m q r l) : Step ⟨.recv k, q, r, m :: l⟩ ⟨k m, q, r, l⟩
  | rightSend (m p q r l) : Step ⟨p, .send m q, r, l⟩ ⟨p, q, r, l ++ [m]⟩
  | rightRecv (k m p r l) : Step ⟨p, .recv k, m :: r, l⟩ ⟨p, k m, r, l⟩

/-- A run of `n` steps, in any interleaving of the two parties. -/
inductive Run : ℕ → Config μ ε α β → Config μ ε α β → Prop
  | refl (c) : Run 0 c c
  | step {n c c' d} : Step c c' → Run n c' d → Run (n + 1) c d

variable {n : ℕ} {c d : Config μ ε α β}

theorem Run.trans {m : ℕ} {e : Config μ ε α β} (h : Run n c d) (h' : Run m d e) :
    Run (n + m) c e := by
  induction h with
  | refl c => rwa [Nat.zero_add]
  | step hs _ ih => rw [Nat.add_right_comm]; exact .step hs (ih h')

/-- **The steps of the two parties commute.** -/
theorem Step.diamond {c1 c2 : Config μ ε α β} (h1 : Step c c1) (h2 : Step c c2) :
    c1 = c2 ∨ ∃ d, Step c1 d ∧ Step c2 d := by
  cases h1 <;> cases h2
  all_goals first
    | exact .inl rfl
    | exact .inr ⟨_, .rightSend .., .leftSend ..⟩
    | exact .inr ⟨_, .leftSend .., .rightSend ..⟩
    | exact .inr ⟨_, .rightRecv .., .leftSend ..⟩
    | exact .inr ⟨_, .leftSend .., .rightRecv ..⟩
    | exact .inr ⟨_, .rightSend .., .leftRecv ..⟩
    | exact .inr ⟨_, .leftRecv .., .rightSend ..⟩
    | exact .inr ⟨_, .rightRecv .., .leftRecv ..⟩
    | exact .inr ⟨_, .leftRecv .., .rightRecv ..⟩

/-- A configuration that no party can leave. -/
def Config.Stuck (c : Config μ ε α β) : Prop := ∀ d, ¬Step c d

theorem Config.stuck_of_ret (a : α) (b : β) (r l : List μ) :
    (⟨.ret a, .ret b, r, l⟩ : Config μ ε α β).Stuck := by
  intro d h
  cases h

theorem Run.of_step {c' : Config μ ε α β} (hrun : Run n c d) (hd : d.Stuck) (hstep : Step c c') :
    ∃ m, n = m + 1 ∧ Run m c' d := by
  induction hrun generalizing c' with
  | refl c => exact absurd hstep (hd c')
  | @step n c e d hce hed ih =>
    refine ⟨n, rfl, ?_⟩
    rcases hce.diamond hstep with rfl | ⟨f, hef, hcf⟩
    · exact hed
    · obtain ⟨m, rfl, hfd⟩ := ih hd hef
      exact .step hcf hfd

/-- **Every interleaving ends where one of them ends**, and after the same number of steps. -/
theorem Run.complete {k : ℕ} {c' : Config μ ε α β} (hrun : Run n c d) (hd : d.Stuck)
    (hrun' : Run k c c') : ∃ m, n = k + m ∧ Run m c' d := by
  induction hrun' generalizing n with
  | refl c => exact ⟨n, (Nat.zero_add n).symm, hrun⟩
  | step hstep _ ih =>
    obtain ⟨m, rfl, hm⟩ := hrun.of_step hd hstep
    obtain ⟨j, rfl, hj⟩ := ih hm
    exact ⟨j, by omega, hj⟩

theorem Config.Failed.run (hrun : Run n c d) (h : c.Failed) : d.Failed := by
  induction hrun with
  | refl c => exact h
  | step hstep _ ih =>
    refine ih ?_
    rcases h with ⟨e, he⟩ | ⟨e, he⟩ <;> cases hstep <;> simp_all [Config.Failed]

/-! ### Sessions -/

/-- Some interleaving leads both parties to results that are related by `R`, with no message
left in flight, or, if `fail` holds, one party to an exception. -/
def Session (fail : Prop) (p : Proc μ ε α) (q : Proc μ ε β) (R : α → β → Prop) : Prop :=
  (∃ n a b, Run n (.start p q) (.done a b) ∧ R a b) ∨
    (fail ∧ ∃ n c, Run n (.start p q) c ∧ c.Failed)

/-- **Total correctness.** There is a bound on the length of all interleavings, and an
interleaving that cannot go on has both parties returned, with related results and no message
left in flight. -/
def Completes (p : Proc μ ε α) (q : Proc μ ε β) (R : α → β → Prop) : Prop :=
  ∃ n, ∀ k c, Run k (.start p q) c →
    k ≤ n ∧ (c.Stuck → ∃ a b, c = .done a b ∧ R a b)

/-- **Partial correctness.** Whenever both parties have returned, in any interleaving, their
results are related and no message is left in flight. -/
def PartiallyCorrect (p : Proc μ ε α) (q : Proc μ ε β) (R : α → β → Prop) : Prop :=
  ∀ n a b r l, Run n (.start p q) ⟨.ret a, .ret b, r, l⟩ → R a b ∧ r = [] ∧ l = []

variable {p : Proc μ ε α} {q : Proc μ ε β} {R : α → β → Prop}

theorem Session.completes (h : Session False p q R) : Completes p q R := by
  obtain ⟨n, a, b, hrun, hR⟩ | ⟨hfalse, -⟩ := h
  · refine ⟨n, fun k c hk => ?_⟩
    obtain ⟨m, rfl, hm⟩ := hrun.complete (Config.stuck_of_ret a b [] []) hk
    refine ⟨by omega, fun hc => ?_⟩
    cases hm with
    | refl => exact ⟨a, b, rfl, hR⟩
    | step hstep _ => exact absurd hstep (hc _)
  · exact hfalse.elim

/-- Total correctness gives a session: a longest interleaving ends in a stuck configuration. -/
theorem Completes.session (h : Completes p q R) : Session False p q R := by
  classical
  obtain ⟨n, hn⟩ := h
  let reaches := fun k => ∃ c, Run k (Config.start p q) c
  have h0 : reaches 0 := ⟨_, .refl _⟩
  obtain ⟨c, hc⟩ := Nat.findGreatest_spec (Nat.zero_le n) h0
  have hstuck : c.Stuck := by
    intro d hd
    have hlong := hc.trans (.step hd (.refl d))
    have hle := Nat.le_findGreatest (P := reaches) (hn _ d hlong).1 ⟨d, hlong⟩
    omega
  obtain ⟨a, b, rfl, hR⟩ := (hn _ c hc).2 hstuck
  exact .inl ⟨_, a, b, hc, hR⟩

variable {S : α → β → Prop}

theorem Completes.exists_of_session (h : Completes p q R) (hS : Session False p q S) :
    ∃ a b, R a b ∧ S a b := by
  obtain ⟨n, hn⟩ := h
  obtain ⟨k, a, b, hrun, hab⟩ | ⟨hfalse, -⟩ := hS
  · obtain ⟨a', b', hdone, hR⟩ := (hn k _ hrun).2 (Config.stuck_of_ret a b [] [])
    obtain ⟨rfl, rfl, -⟩ := hdone
    exact ⟨a, b, hR, hab⟩
  · exact hfalse.elim

theorem PartiallyCorrect.exists_of_session (h : PartiallyCorrect p q R) (hS : Session False p q S) :
    ∃ a b, R a b ∧ S a b := by
  obtain ⟨k, a, b, hrun, hab⟩ | ⟨hfalse, -⟩ := hS
  · exact ⟨a, b, (h k a b [] [] hrun).1, hab⟩
  · exact hfalse.elim

theorem not_completes_throw (e e' : ε) :
    ¬Completes (.throw e : Proc μ ε α) (.throw e' : Proc μ ε β) R := by
  rintro ⟨n, hn⟩
  have hstuck : (Config.start (.throw e : Proc μ ε α) (.throw e' : Proc μ ε β)).Stuck := by
    intro d hd
    cases hd
  obtain ⟨a, b, hdone, -⟩ := (hn 0 _ (.refl _)).2 hstuck
  cases congrArg Config.left hdone

theorem Session.partiallyCorrect {fail : Prop} (h : Session fail p q R) :
    PartiallyCorrect p q R := by
  intro n a b r l hrun
  obtain ⟨m, a', b', hrun', hR⟩ | ⟨-, m, c, hrun', hfail⟩ := h
  · obtain ⟨j, -, hj⟩ := hrun'.complete (Config.stuck_of_ret a' b' [] []) hrun
    cases hj with
    | refl => exact ⟨hR, rfl, rfl⟩
    | step hstep _ => cases hstep
  · obtain ⟨j, -, hj⟩ := hrun.complete (Config.stuck_of_ret a b r l) hrun'
    rcases hfail.run hj with ⟨e, he⟩ | ⟨e, he⟩ <;> cases he

/-- A process that returns `a` after some sequence of messages from the other party. -/
inductive Proc.Returns : Proc μ ε α → α → Prop
  | ret (a) : Returns (.ret a) a
  | send (m) {p a} : Returns p a → Returns (.send m p) a
  | recv {k : μ → Proc μ ε α} (m) {a} : Returns (k m) a → Returns (.recv k) a

variable {f : α → Proc μ ε β} {b : β}

theorem Proc.Returns.of_bind (h : (p >>= f).Returns b) : ∃ a, p.Returns a ∧ (f a).Returns b := by
  induction p with
  | ret a => exact ⟨a, .ret a, h⟩
  | throw e => cases h
  | send m p ih =>
    cases h with
    | send _ h => exact (ih h).imp fun a ha => ⟨.send m ha.1, ha.2⟩
  | recv k ih =>
    cases h with
    | recv m h => exact (ih m h).imp fun a ha => ⟨.recv m ha.1, ha.2⟩

variable {a : α}

theorem Proc.Returns.bind (h : p.Returns a) (hf : (f a).Returns b) : (p >>= f).Returns b := by
  induction h with
  | ret a => exact hf
  | send m _ ih => exact .send m (ih hf)
  | recv m _ ih => exact .recv m (ih hf)

variable {x : Except ε α}

theorem Proc.returns_of_ok (h : x = .ok a) : (liftM x : Proc μ ε α).Returns a := by
  rw [h]
  exact .ret a

theorem Proc.Returns.of_liftM (h : (liftM x : Proc μ ε α).Returns a) : x = .ok a := by
  cases x with
  | error e => cases h
  | ok b =>
    cases h with
    | ret => rfl

theorem Proc.Returns.of_ret {b : α} (h : (Proc.ret a : Proc μ ε α).Returns b) : b = a := by
  cases h with
  | ret => rfl

theorem Run.returns (hrun : Run n c d) :
    (∀ a, d.left.Returns a → c.left.Returns a) ∧ ∀ b, d.right.Returns b → c.right.Returns b := by
  induction hrun with
  | refl c => exact ⟨fun _ => id, fun _ => id⟩
  | step hstep _ ih =>
    obtain ⟨hleft, hright⟩ := ih
    cases hstep with
    | leftSend m p q r l => exact ⟨fun a ha => .send m (hleft a ha), hright⟩
    | leftRecv k m q r l => exact ⟨fun a ha => .recv m (hleft a ha), hright⟩
    | rightSend m p q r l => exact ⟨hleft, fun b hb => .send m (hright b hb)⟩
    | rightRecv k m p r l => exact ⟨hleft, fun b hb => .recv m (hright b hb)⟩

/-- The result of a process that has returned. -/
def Proc.result? : Proc μ ε α → Option α
  | ret a => some a
  | _ => none

theorem Proc.returns_of_result? {p : Proc μ ε α} (h : p.result? = some a) : p.Returns a := by
  cases p with
  | ret b => exact Option.some_inj.mp h ▸ .ret b
  | _ => nomatch h

/-- A process that returns after no sequence of messages. -/
def Proc.NeverReturns : Proc μ ε α → Prop
  | ret _ => False
  | throw _ => True
  | send _ p => p.NeverReturns
  | recv k => ∀ m, (k m).NeverReturns

theorem Proc.NeverReturns.bind (h : p.NeverReturns) (f : α → Proc μ ε β) :
    (p >>= f).NeverReturns := by
  induction p with
  | ret a => exact h.elim
  | throw e => trivial
  | send m p ih => exact ih h
  | recv k ih => exact fun m => ih m (h m)

theorem Proc.neverReturns_bind (p : Proc μ ε α) (h : ∀ a, (f a).NeverReturns) :
    (p >>= f).NeverReturns := by
  induction p with
  | ret a => exact h a
  | throw e => trivial
  | send m p ih => exact ih
  | recv k ih => exact fun m => ih m

theorem Proc.neverReturns_forLoop {σ : Type} {i : ℕ} (hi : i < n) {body : ℕ → σ → Proc μ ε σ}
    (h : ∀ s, (body i s).NeverReturns) (s : σ) : (Loop.forLoop n body s).NeverReturns := by
  induction n with
  | zero => exact absurd hi (Nat.not_lt_zero i)
  | succ n ih =>
    rcases Nat.lt_succ_iff_lt_or_eq.mp hi with hlt | rfl
    · exact (ih hlt).bind _
    · exact Proc.neverReturns_bind _ h

variable {e : ε}

theorem Proc.neverReturns_of_error {g : α → Except ε γ} (h : (x >>= g) = .error e)
    (hf : ∀ a, g a = .error e → (f a).NeverReturns) : (liftM x >>= f).NeverReturns := by
  cases x with
  | ok a => exact hf a h
  | error e => trivial

theorem Run.neverReturns (hrun : Run n c d) (h : c.left.NeverReturns ∨ c.right.NeverReturns) :
    d.left.NeverReturns ∨ d.right.NeverReturns := by
  induction hrun with
  | refl c => exact h
  | step hstep _ ih =>
    refine ih ?_
    cases hstep with
    | leftSend m p q r l => exact h
    | leftRecv k m q r l => exact h.imp (fun h => h m) id
    | rightSend m p q r l => exact h
    | rightRecv k m p r l => exact h.imp id fun h => h m

theorem partiallyCorrect_of_neverReturns (h : p.NeverReturns ∨ q.NeverReturns) :
    PartiallyCorrect p q R :=
  fun _ _ _ _ _ hrun => (hrun.neverReturns h).elim False.elim False.elim

/-! ### Rules for sessions -/

variable {fail : Prop}

theorem Session.ret (h : R a b) : Session (μ := μ) (ε := ε) fail (.ret a) (.ret b) R :=
  .inl ⟨0, a, b, .refl _, h⟩

theorem Session.mono (h : Session fail p q R) (hRS : ∀ a b, R a b → S a b) :
    Session fail p q S := by
  obtain ⟨n, a, b, hrun, hR⟩ | hfail := h
  · exact .inl ⟨n, a, b, hrun, hRS a b hR⟩
  · exact .inr hfail

theorem Session.of_false (h : Session False p q R) : Session fail p q R :=
  h.imp id fun h => h.1.elim

theorem Session.of_run {p' : Proc μ ε α} {q' : Proc μ ε β}
    (hrun : Run n (.start p q) (.start p' q')) (h : Session fail p' q' R) : Session fail p q R := by
  obtain ⟨m, a, b, hrun', hR⟩ | ⟨hfail, m, c, hrun', hc⟩ := h
  · exact .inl ⟨n + m, a, b, hrun.trans hrun', hR⟩
  · exact .inr ⟨hfail, n + m, c, hrun.trans hrun', hc⟩

theorem Session.send_recv {p' : Proc μ ε α} {q : μ → Proc μ ε β} {m : μ}
    (h : Session fail p' (q m) R) :
    Session fail (Proc.sendMsg m >>= fun _ => p') (Proc.recvMsg >>= q) R :=
  .of_run (.step (.leftSend ..) (.step (.rightRecv ..) (.refl _))) h

theorem Session.recv_send {p : μ → Proc μ ε α} {q' : Proc μ ε β} {m : μ}
    (h : Session fail (p m) q' R) :
    Session fail (Proc.recvMsg >>= p) (Proc.sendMsg m >>= fun _ => q') R :=
  .of_run (.step (.rightSend ..) (.step (.leftRecv ..) (.refl _))) h

theorem Session.throw_left (hfail : fail) : Session fail (.throw e) q R :=
  .inr ⟨hfail, 0, _, .refl _, .inl ⟨e, rfl⟩⟩

theorem Session.throw_right (hfail : fail) : Session fail p (.throw e) R :=
  .inr ⟨hfail, 0, _, .refl _, .inr ⟨e, rfl⟩⟩

/-- A local computation of the left party either gives a value or ends the session. -/
theorem Session.bind_except_left {x : Except ε γ} {f : γ → Proc μ ε α} (hfail : fail)
    (h : ∀ a, x = .ok a → Session fail (f a) q R) : Session fail (liftM x >>= f) q R := by
  cases hx : x with
  | ok a => exact h a hx
  | error e => exact .throw_left hfail

theorem Session.bind_except_right {x : Except ε γ} {g : γ → Proc μ ε β} (hfail : fail)
    (h : ∀ a, x = .ok a → Session fail p (g a) R) : Session fail p (liftM x >>= g) R := by
  cases hx : x with
  | ok a => exact h a hx
  | error e => exact .throw_right hfail

theorem Session.except_right {x : Except ε β} (hfail : fail) (h : ∀ b, x = .ok b → R a b) :
    Session fail (.ret a : Proc μ ε α) (liftM x) R := by
  cases hx : x with
  | ok b => exact .ret (h b hx)
  | error e => exact .throw_right hfail

theorem Session.except_both {y : Except ε β} (hfail : fail)
    (h : ∀ a b, x = .ok a → y = .ok b → R a b) :
    Session fail (liftM x : Proc μ ε α) (liftM y) R := by
  cases hx : x with
  | ok a => exact .except_right hfail fun b => h a b hx
  | error e => exact .throw_left hfail

/-- A configuration with a continuation for each party. -/
def Config.bind (c : Config μ ε α β) (f : α → Proc μ ε γ) (g : β → Proc μ ε δ) :
    Config μ ε γ δ :=
  ⟨c.left >>= f, c.right >>= g, c.toRight, c.toLeft⟩

theorem Run.bind (h : Run n c d) (f : α → Proc μ ε γ) (g : β → Proc μ ε δ) :
    Run n (c.bind f g) (d.bind f g) := by
  induction h with
  | refl c => exact .refl _
  | step hstep _ ih =>
    refine .step ?_ ih
    cases hstep with
    | leftSend => exact .leftSend ..
    | leftRecv => exact .leftRecv ..
    | rightSend => exact .rightSend ..
    | rightRecv => exact .rightRecv ..

/-- **Sessions compose.** -/
theorem Session.bind {f : α → Proc μ ε γ} {g : β → Proc μ ε δ} {S : γ → δ → Prop}
    (h : Session fail p q R) (hfg : ∀ a b, R a b → Session fail (f a) (g b) S) :
    Session fail (p >>= f) (q >>= g) S := by
  obtain ⟨n, a, b, hrun, hR⟩ | ⟨hfail, n, c, hrun, hc⟩ := h
  · exact .of_run (hrun.bind f g) (hfg a b hR)
  · refine .inr ⟨hfail, n, _, hrun.bind f g, ?_⟩
    rcases hc with ⟨e, he⟩ | ⟨e, he⟩
    · exact .inl ⟨e, by rw [Config.bind, he]; rfl⟩
    · exact .inr ⟨e, by rw [Config.bind, he]; rfl⟩

/-- **Loops in step.** Two loops of the same length keep an invariant that relates their
states, if their bodies do. -/
theorem Session.forLoop {σ τ : Type} {p : ℕ → σ → Proc μ ε σ} {q : ℕ → τ → Proc μ ε τ} {s : σ}
    {t : τ} (Inv : ℕ → σ → τ → Prop) (h0 : Inv 0 s t)
    (hstep : ∀ i < n, ∀ s t, Inv i s t → Session fail (p i s) (q i t) (Inv (i + 1))) :
    Session fail (Loop.forLoop n p s) (Loop.forLoop n q t) (Inv n) := by
  induction n with
  | zero => exact .ret h0
  | succ n ih =>
    exact .bind (ih fun i hi => hstep i (by omega)) fun s t => hstep n (by omega) s t

end TwoParty
