import Mathlib.Tactic
import Yacl.Base.Exception

/-!
# The window of parallel chunks

`SendChunkedWindow`, `SendChunkedTask` and the loop of `SendChunked`, from
`yacl/link/transport/channel.cc`, as a state machine. The sender gets a token for every chunk,
starts a thread that pushes the chunk, and waits for the last threads in `Finished`. A thread that
is done returns its token, with the exception of the push if there was one, and notifies the sender.
Each transition is a critical section of the mutex of the window: the sender takes it at the start
of `GetToken` and `Finished` and at the end of a wait, and a thread takes it in `OnPushDone`. A wait
ends after a notification, or without one, as a wait on a condition variable may. That a thread
cannot be started is not modelled.

The sender looks at the exception only after a wait. So a failed push is reported exactly if the
window was full at some moment and a push has failed when the sender takes the mutex the next time
(`run_thrown_iff`), and a chunk may be lost silently. No notification is lost: a sender that waits
while no push is in flight has been notified.
-/

namespace Yacl.Link

/-- Where the sender is. -/
inductive SenderPc where
  /-- About to call `GetToken` for a chunk. -/
  | getToken (chunkIdx : ℕ)
  /-- In the wait of `GetToken`. -/
  | tokenWait (chunkIdx : ℕ)
  /-- About to call `Finished`. -/
  | finished
  /-- In the wait of `Finished`. -/
  | finishedWait
  /-- `SendChunked` has returned. -/
  | returned
  /-- `SendChunked` has thrown. -/
  | thrown (e : Exception)
deriving DecidableEq

namespace SenderPc

/-- The sender is in a wait. -/
def waits : SenderPc → Bool
  | tokenWait _ => true
  | finishedWait => true
  | _ => false

/-- `SendChunked` is over. -/
def ended : SenderPc → Bool
  | returned => true
  | thrown _ => true
  | _ => false

end SenderPc

/-- `SendChunkedWindow` and its sender. -/
structure SendChunkedWindow where
  pc : SenderPc
  /-- `running_push_`. -/
  runningPush : ℤ
  /-- `async_exception_`. -/
  asyncException : Option Exception
  /-- `cond_` was notified since the wait of the sender has begun. -/
  notified : Bool
  /-- The chunks whose threads have a token. -/
  inFlight : List ℕ
  /-- The chunks whose push was successful. -/
  pushed : List ℕ
  /-- The chunks whose push ended in an exception. -/
  failed : List ℕ
deriving DecidableEq

/-- What can happen. -/
inductive WindowEvent where
  /-- The sender takes the mutex, at the start of `GetToken` or `Finished` or when a wait has ended;
  a wait that ends without a notification ends spuriously. -/
  | lock (spurious : Bool)
  /-- `OnPushDone` for a chunk. -/
  | pushDone (chunkIdx : ℕ) (e : Option Exception)
deriving DecidableEq

namespace SendChunkedWindow

/-- The state of the sender after a number of chunks. -/
def nextPc (numChunks chunkIdx : ℕ) : SenderPc :=
  if chunkIdx < numChunks then .getToken chunkIdx else .finished

/-- The window before the first chunk. -/
def start (numChunks : ℕ) : SendChunkedWindow := ⟨nextPc numChunks 0, 0, none, false, [], [], []⟩

section Step

variable (numChunks parallelLimit : ℕ)

/-- The condition of the loop in `GetToken`: the sender waits, or it gets its token and starts the
thread of the chunk. -/
def tryToken (w : SendChunkedWindow) (chunkIdx : ℕ) : SendChunkedWindow :=
  if w.runningPush > parallelLimit then { w with pc := .tokenWait chunkIdx, notified := false }
  else { w with pc := nextPc numChunks (chunkIdx + 1), inFlight := chunkIdx :: w.inFlight }

/-- The condition of the loop in `Finished`. -/
def tryFinish (w : SendChunkedWindow) : SendChunkedWindow :=
  if w.runningPush ≠ 0 then { w with pc := .finishedWait, notified := false }
  else { w with pc := .returned }

/-- After a wait: the exception of a push is thrown, and without one the loop goes on. -/
def afterWait (w next : SendChunkedWindow) : SendChunkedWindow :=
  match w.asyncException with
  | some e => { w with pc := .thrown e }
  | none => next

/-- `OnPushDone`, with `cond_.notify_all()`. -/
def onPushDone (w : SendChunkedWindow) (chunkIdx : ℕ) (e : Option Exception) :
    SendChunkedWindow where
  pc := w.pc
  runningPush := w.runningPush - 1
  asyncException := e.or w.asyncException
  notified := true
  inFlight := w.inFlight.erase chunkIdx
  pushed := if e.isNone then chunkIdx :: w.pushed else w.pushed
  failed := if e.isNone then w.failed else chunkIdx :: w.failed

/-- One event, if it is possible. -/
def step (w : SendChunkedWindow) : WindowEvent → Option SendChunkedWindow
  | .lock spurious => match w.pc with
    | .getToken chunkIdx =>
      if spurious then none
      else some (tryToken numChunks parallelLimit { w with runningPush := w.runningPush + 1 }
        chunkIdx)
    | .finished => if spurious then none else some w.tryFinish
    | .tokenWait chunkIdx =>
      if w.notified || spurious then
        some (w.afterWait (tryToken numChunks parallelLimit w chunkIdx))
      else none
    | .finishedWait => if w.notified || spurious then some (w.afterWait w.tryFinish) else none
    | _ => none
  | .pushDone chunkIdx e =>
    if chunkIdx ∈ w.inFlight then some (w.onPushDone chunkIdx e) else none

/-- The state after a history, which lists the last event first. -/
def run : List WindowEvent → Option SendChunkedWindow
  | [] => some (start numChunks)
  | e :: past => (run past).bind fun w => w.step numChunks parallelLimit e

/-! ### The order of the events -/

/-- The tokens that were given and the pushes in flight, counted along the history. -/
def tally : List WindowEvent → ℕ × ℕ
  | [] => (0, 0)
  | .lock _ :: past =>
    if (tally past).1 < numChunks ∧ (tally past).2 < parallelLimit then
      ((tally past).1 + 1, (tally past).2 + 1)
    else tally past
  | .pushDone _ _ :: past => ((tally past).1, (tally past).2 - 1)

/-- **The window is full**: the limit of pushes is in flight, or after the last token a push is. -/
def Full (past : List WindowEvent) : Prop :=
  if (tally numChunks parallelLimit past).1 < numChunks then
    parallelLimit ≤ (tally numChunks parallelLimit past).2
  else 0 < (tally numChunks parallelLimit past).2

/-- The window was full when the sender took the mutex the last time. -/
def WasFull : List WindowEvent → Prop
  | [] => False
  | .lock _ :: past => Full numChunks parallelLimit past
  | .pushDone _ _ :: past => WasFull past

/-- Some push has failed. -/
def SomeFailed (past : List WindowEvent) : Prop := ∃ i e, .pushDone i (some e) ∈ past

/-- **A failure is noticed**: at some moment the sender takes the mutex when a push has failed, and
the window was full when it took the mutex before. -/
def Noticed : List WindowEvent → Prop
  | [] => False
  | .lock _ :: past => WasFull numChunks parallelLimit past ∧ SomeFailed past ∨ Noticed past
  | .pushDone _ _ :: past => Noticed past

end Step

/-- A whole run of `SendChunked`, to the state in which it has returned or thrown. -/
def Finishes (numChunks parallelLimit : ℕ) (past : List WindowEvent) (w : SendChunkedWindow) :
    Prop :=
  run numChunks parallelLimit past = some w ∧ w.pc.ended

instance (numChunks parallelLimit : ℕ) (past : List WindowEvent) (w : SendChunkedWindow) :
    Decidable (Finishes numChunks parallelLimit past w) :=
  inferInstanceAs (Decidable (_ ∧ _))

/-- **No silent loss**: if a push has failed then `SendChunked` has thrown, and it has returned only
if every chunk was pushed. -/
def NoSilentLoss (numChunks : ℕ) (w : SendChunkedWindow) : Prop :=
  (w.failed ≠ [] → ∃ e, w.pc = .thrown e) ∧ (w.pc = .returned → ∀ i < numChunks, i ∈ w.pushed)

variable {numChunks parallelLimit : ℕ}

/-! ### What an event can do -/

/-- The transitions, one for each way to make a step. -/
inductive Transition (numChunks parallelLimit : ℕ) (w : SendChunkedWindow) :
    WindowEvent → SendChunkedWindow → Prop
  | getToken (chunkIdx : ℕ) (hpc : w.pc = .getToken chunkIdx) :
      Transition numChunks parallelLimit w (.lock false)
        (tryToken numChunks parallelLimit { w with runningPush := w.runningPush + 1 } chunkIdx)
  | finished (hpc : w.pc = .finished) :
      Transition numChunks parallelLimit w (.lock false) w.tryFinish
  | wakeToken (spurious : Bool) (chunkIdx : ℕ) (hpc : w.pc = .tokenWait chunkIdx)
      (he : w.asyncException = none) : Transition numChunks parallelLimit w (.lock spurious)
        (tryToken numChunks parallelLimit w chunkIdx)
  | wakeFinished (spurious : Bool) (hpc : w.pc = .finishedWait) (he : w.asyncException = none) :
      Transition numChunks parallelLimit w (.lock spurious) w.tryFinish
  | throw (spurious : Bool) (e : Exception) (hpc : w.pc.waits) (he : w.asyncException = some e) :
      Transition numChunks parallelLimit w (.lock spurious) { w with pc := .thrown e }
  | pushDone (chunkIdx : ℕ) (e : Option Exception) (hmem : chunkIdx ∈ w.inFlight) :
      Transition numChunks parallelLimit w (.pushDone chunkIdx e) (w.onPushDone chunkIdx e)

variable {w w' : SendChunkedWindow} {e : WindowEvent} {past : List WindowEvent}

theorem transition_of_step (h : w.step numChunks parallelLimit e = some w') :
    Transition numChunks parallelLimit w e w' := by
  cases e with
  | lock spurious =>
    rw [step] at h
    split at h
    · next i hpc =>
      obtain ⟨hspurious, h⟩ := Option.ite_none_left_eq_some.mp h
      obtain rfl := Option.some_inj.mp h
      rw [Bool.not_eq_true] at hspurious
      exact hspurious ▸ .getToken i hpc
    · next hpc =>
      obtain ⟨hspurious, h⟩ := Option.ite_none_left_eq_some.mp h
      obtain rfl := Option.some_inj.mp h
      rw [Bool.not_eq_true] at hspurious
      exact hspurious ▸ .finished hpc
    · next i hpc =>
      obtain rfl := Option.some_inj.mp (Option.ite_none_right_eq_some.mp h).2
      rw [afterWait]
      split
      · next err he => exact .throw spurious err (by rw [hpc]; rfl) he
      · next he => exact .wakeToken spurious i hpc he
    · next hpc =>
      obtain rfl := Option.some_inj.mp (Option.ite_none_right_eq_some.mp h).2
      rw [afterWait]
      split
      · next err he => exact .throw spurious err (by rw [hpc]; rfl) he
      · next he => exact .wakeFinished spurious hpc he
    · nomatch h
  | pushDone chunkIdx e =>
    rw [step] at h
    obtain ⟨hmem, h⟩ := Option.ite_none_right_eq_some.mp h
    obtain rfl := Option.some_inj.mp h
    exact .pushDone chunkIdx e hmem

theorem run_cons (h : run numChunks parallelLimit (e :: past) = some w') :
    ∃ w, run numChunks parallelLimit past = some w ∧ w.step numChunks parallelLimit e = some w' :=
  Option.bind_eq_some_iff.mp h

theorem pc_of_thrown {err : Exception} (hpc : w.pc = .thrown err)
    (h : w.step numChunks parallelLimit e = some w') : w'.pc = .thrown err := by
  cases e with
  | lock spurious =>
    rw [step, hpc] at h
    nomatch h
  | pushDone chunkIdx e =>
    cases transition_of_step h
    exact hpc

theorem someFailed_pushDone {i : ℕ} {e : Option Exception} :
    SomeFailed (.pushDone i e :: past) ↔ e.isSome ∨ SomeFailed past := by
  simp only [SomeFailed, List.mem_cons, WindowEvent.pushDone.injEq]
  constructor
  · rintro ⟨j, err, ⟨-, rfl⟩ | hmem⟩
    · exact .inl rfl
    · exact .inr ⟨j, err, hmem⟩
  · rintro (hsome | ⟨j, err, hmem⟩)
    · exact ⟨i, _, .inl ⟨rfl, Option.some_get hsome⟩⟩
    · exact ⟨j, err, .inr hmem⟩

theorem someFailed_lock {spurious : Bool} :
    SomeFailed (.lock spurious :: past) ↔ SomeFailed past := by
  simp [SomeFailed]

theorem tryToken_frame (w : SendChunkedWindow) (chunkIdx : ℕ) :
    (tryToken numChunks parallelLimit w chunkIdx).asyncException = w.asyncException ∧
      (tryToken numChunks parallelLimit w chunkIdx).failed = w.failed := by
  rw [tryToken]
  split <;> exact ⟨rfl, rfl⟩

theorem tryFinish_frame (w : SendChunkedWindow) :
    w.tryFinish.asyncException = w.asyncException ∧ w.tryFinish.failed = w.failed := by
  rw [tryFinish]
  split <;> exact ⟨rfl, rfl⟩

theorem run_failed (past : List WindowEvent) : ∀ {w : SendChunkedWindow},
    run numChunks parallelLimit past = some w →
    (w.asyncException.isSome ↔ SomeFailed past) ∧ (w.failed ≠ [] ↔ SomeFailed past) := by
  induction past with
  | nil =>
    intro w hrun
    obtain rfl := Option.some_inj.mp hrun
    simp [start, SomeFailed]
  | cons e past ih =>
    intro w' hrun
    obtain ⟨w, hpast, hstep⟩ := run_cons hrun
    have hsame := ih hpast
    cases transition_of_step hstep with
    | getToken i hi => rwa [(tryToken_frame _ _).1, (tryToken_frame _ _).2, someFailed_lock]
    | finished hf => rwa [(tryFinish_frame _).1, (tryFinish_frame _).2, someFailed_lock]
    | wakeToken _ i hi he => rwa [(tryToken_frame _ _).1, (tryToken_frame _ _).2, someFailed_lock]
    | wakeFinished _ hf he => rwa [(tryFinish_frame _).1, (tryFinish_frame _).2, someFailed_lock]
    | throw _ err hpc he => rwa [someFailed_lock]
    | pushDone i err hmem =>
      rw [someFailed_pushDone]
      cases err with
      | none => simpa [onPushDone] using hsame
      | some err => simp [onPushDone]

/-! ### The accounts of the window -/

/-- The number of chunks that got a token. -/
def tokens (numChunks : ℕ) : SenderPc → ℕ
  | .getToken chunkIdx => chunkIdx
  | .tokenWait chunkIdx => chunkIdx
  | _ => numChunks

/-- What a sender without a token adds to `running_push_`. -/
def waiting : SenderPc → ℕ
  | .tokenWait _ => 1
  | _ => 0

/-- **The accounts of the window** after a history, as long as the sender has not thrown. -/
structure Inv (numChunks parallelLimit : ℕ) (past : List WindowEvent) (w : SendChunkedWindow) :
    Prop where
  tokens : ∀ i < tokens numChunks w.pc, i ∈ w.inFlight ∨ i ∈ w.pushed ∨ i ∈ w.failed
  index : ∀ i, w.pc = .getToken i ∨ w.pc = .tokenWait i → i < numChunks
  running : w.runningPush = w.inFlight.length + waiting w.pc
  returned : w.pc = .returned → w.inFlight = []
  notified : w.pc.waits → w.inFlight = [] → w.notified
  tally : SendChunkedWindow.tally numChunks parallelLimit past =
    (SendChunkedWindow.tokens numChunks w.pc, w.inFlight.length)
  wasFull : WasFull numChunks parallelLimit past ↔ w.pc.waits

variable {chunkIdx : ℕ}

theorem tokens_nextPc {numChunks : ℕ} (h : chunkIdx ≤ numChunks) :
    tokens numChunks (nextPc numChunks chunkIdx) = chunkIdx := by
  rw [nextPc]
  split
  · rfl
  · dsimp only [tokens]
    omega

theorem waiting_nextPc (numChunks chunkIdx : ℕ) : waiting (nextPc numChunks chunkIdx) = 0 := by
  rw [nextPc]
  split <;> rfl

theorem waits_nextPc (numChunks chunkIdx : ℕ) : (nextPc numChunks chunkIdx).waits = false := by
  rw [nextPc]
  split <;> rfl

theorem ended_nextPc (numChunks chunkIdx : ℕ) : (nextPc numChunks chunkIdx).ended = false := by
  rw [nextPc]
  split <;> rfl

theorem lt_of_nextPc {numChunks i : ℕ}
    (h : nextPc numChunks chunkIdx = .getToken i ∨ nextPc numChunks chunkIdx = .tokenWait i) :
    i < numChunks := by
  rw [nextPc] at h
  split at h
  · next hlt =>
    rcases h with h | h
    · exact SenderPc.getToken.inj h ▸ hlt
    · nomatch h
  · rcases h with h | h <;> nomatch h

theorem start_inv (numChunks parallelLimit : ℕ) :
    (start numChunks).Inv numChunks parallelLimit [] := by
  have htokens := tokens_nextPc (Nat.zero_le numChunks)
  have hwaits := waits_nextPc numChunks 0
  constructor
  · intro i hi
    rw [start, htokens] at hi
    omega
  · exact fun i h => lt_of_nextPc h
  · rw [start, waiting_nextPc]
    rfl
  · exact fun _ => rfl
  · intro h
    rw [start, hwaits] at h
    nomatch h
  · rw [start, htokens]
    rfl
  · rw [start, hwaits]
    exact iff_of_false id Bool.false_ne_true

theorem inv_tryToken (hlimit : 0 < parallelLimit) (hidx : chunkIdx < numChunks)
    (htokens : ∀ i < chunkIdx, i ∈ w.inFlight ∨ i ∈ w.pushed ∨ i ∈ w.failed)
    (hrunning : w.runningPush = w.inFlight.length + 1)
    (htally : tally numChunks parallelLimit past = (chunkIdx, w.inFlight.length))
    (spurious : Bool) :
    (tryToken numChunks parallelLimit w chunkIdx).Inv numChunks parallelLimit
      (.lock spurious :: past) := by
  rw [tryToken]
  split
  · have hfull : ¬w.inFlight.length < parallelLimit := by omega
    constructor
    · exact htokens
    · rintro i (h | h)
      · nomatch h
      · exact SenderPc.tokenWait.inj h ▸ hidx
    · exact hrunning
    · exact SenderPc.noConfusion
    · intro _ hnil
      rw [hnil] at hfull
      exact absurd hlimit hfull
    · rw [tally, htally, if_neg fun h => hfull h.2]
      rfl
    · rw [WasFull, Full, htally, if_pos hidx]
      exact iff_of_true (not_lt.mp hfull) rfl
  · have hfree : w.inFlight.length < parallelLimit := by omega
    have hnext : tokens numChunks (nextPc numChunks (chunkIdx + 1)) = chunkIdx + 1 :=
      tokens_nextPc hidx
    have hwaits := waits_nextPc numChunks (chunkIdx + 1)
    constructor
    · intro i hi
      rw [hnext] at hi
      rcases Nat.lt_succ_iff_lt_or_eq.mp hi with hi | rfl
      · exact (htokens i hi).imp_left (List.mem_cons_of_mem _)
      · exact .inl List.mem_cons_self
    · exact fun i h => lt_of_nextPc h
    · rw [waiting_nextPc, List.length_cons]
      exact hrunning
    · intro h
      have hended := ended_nextPc numChunks (chunkIdx + 1)
      rw [show nextPc numChunks (chunkIdx + 1) = .returned from h] at hended
      nomatch hended
    · intro h
      rw [hwaits] at h
      nomatch h
    · rw [tally, htally, if_pos ⟨hidx, hfree⟩, hnext]
      rfl
    · rw [WasFull, Full, htally, if_pos hidx, hwaits]
      exact iff_of_false (not_le.mpr hfree) Bool.false_ne_true

theorem inv_tryFinish (htokens : ∀ i < numChunks, i ∈ w.inFlight ∨ i ∈ w.pushed ∨ i ∈ w.failed)
    (hrunning : w.runningPush = w.inFlight.length)
    (htally : tally numChunks parallelLimit past = (numChunks, w.inFlight.length))
    (spurious : Bool) : w.tryFinish.Inv numChunks parallelLimit (.lock spurious :: past) := by
  have htally' : tally numChunks parallelLimit (.lock spurious :: past) =
      (numChunks, w.inFlight.length) := by
    rw [tally, htally, if_neg fun h => lt_irrefl _ h.1]
  have hfull : WasFull numChunks parallelLimit (.lock spurious :: past) ↔
      0 < w.inFlight.length := by
    rw [WasFull, Full, htally, if_neg (lt_irrefl _)]
  rw [tryFinish]
  split
  · next hne =>
    have hpos : 0 < w.inFlight.length := by omega
    refine ⟨htokens, ?_, by simpa [waiting] using hrunning, SenderPc.noConfusion, fun _ hnil => ?_,
      htally', hfull.trans (iff_of_true hpos rfl)⟩
    · rintro i (h | h) <;> nomatch h
    · exact absurd hnil (List.ne_nil_of_length_pos hpos)
  · next hzero =>
    have hzero' : w.inFlight.length = 0 := by omega
    refine ⟨htokens, ?_, by simpa [waiting] using hrunning,
      fun _ => List.length_eq_zero_iff.mp hzero', Bool.noConfusion, htally',
      hfull.trans (iff_of_false (by omega) Bool.false_ne_true)⟩
    rintro i (h | h) <;> nomatch h

theorem Inv.onPushDone (h : w.Inv numChunks parallelLimit past) (hmem : chunkIdx ∈ w.inFlight)
    (e : Option Exception) :
    (w.onPushDone chunkIdx e).Inv numChunks parallelLimit (.pushDone chunkIdx e :: past) := by
  have hpos := List.length_pos_of_mem hmem
  have hlength := List.length_erase_of_mem hmem
  constructor
  · intro j hj
    dsimp only [SendChunkedWindow.onPushDone] at hj ⊢
    by_cases hji : j = chunkIdx
    · subst hji
      cases e with
      | none => exact .inr (.inl List.mem_cons_self)
      | some err => exact .inr (.inr List.mem_cons_self)
    · rcases h.tokens j hj with hj | hj | hj
      · exact .inl ((List.mem_erase_of_ne hji).mpr hj)
      · refine .inr (.inl ?_)
        split
        · exact List.mem_cons_of_mem _ hj
        · exact hj
      · refine .inr (.inr ?_)
        split
        · exact hj
        · exact List.mem_cons_of_mem _ hj
  · exact h.index
  · have hrunning := h.running
    dsimp only [SendChunkedWindow.onPushDone]
    omega
  · intro hret
    rw [h.returned hret] at hmem
    exact absurd hmem List.not_mem_nil
  · exact fun _ _ => rfl
  · dsimp only [SendChunkedWindow.onPushDone]
    rw [SendChunkedWindow.tally, h.tally, hlength]
  · exact h.wasFull

/-- **One event.** -/
theorem Inv.step (hlimit : 0 < parallelLimit) (h : w.Inv numChunks parallelLimit past)
    (hstep : w.step numChunks parallelLimit e = some w') (hpc : ∀ e, w'.pc ≠ .thrown e) :
    w'.Inv numChunks parallelLimit (e :: past) := by
  have htokens := h.tokens
  have hrunning := h.running
  have htally := h.tally
  cases transition_of_step hstep with
  | getToken i hi =>
    rw [hi] at htokens hrunning htally
    have hrunning' : w.runningPush + 1 = w.inFlight.length + 1 := by
      simpa [waiting] using hrunning
    exact inv_tryToken (w := { w with runningPush := w.runningPush + 1 }) hlimit
      (h.index i (.inl hi)) htokens hrunning' htally false
  | finished hf =>
    rw [hf] at htokens hrunning htally
    exact inv_tryFinish htokens (by simpa [waiting] using hrunning) htally false
  | wakeToken spurious i hi he =>
    rw [hi] at htokens hrunning htally
    exact inv_tryToken hlimit (h.index i (.inr hi)) htokens (by simpa [waiting] using hrunning)
      htally spurious
  | wakeFinished spurious hf he =>
    rw [hf] at htokens hrunning htally
    exact inv_tryFinish htokens (by simpa [waiting] using hrunning) htally spurious
  | throw _ err _ he => exact absurd rfl (hpc err)
  | pushDone i err hmem => exact h.onPushDone hmem err

theorem run_inv (hlimit : 0 < parallelLimit) (past : List WindowEvent) :
    ∀ {w : SendChunkedWindow}, run numChunks parallelLimit past = some w →
      (∀ e, w.pc ≠ .thrown e) → w.Inv numChunks parallelLimit past := by
  induction past with
  | nil =>
    intro w hrun _
    obtain rfl := Option.some_inj.mp hrun
    exact start_inv numChunks parallelLimit
  | cons e past ih =>
    intro w' hrun hpc
    obtain ⟨w, hpast, hstep⟩ := run_cons hrun
    exact (ih hpast fun err herr => hpc err (pc_of_thrown herr hstep)).step hlimit hstep hpc

/-! ### No deadlock -/

/-- In every state that can be reached, a sender that waits while no push is in flight has been
notified: it takes the mutex, and does not wait again. -/
def NoDeadlock (numChunks parallelLimit : ℕ) : Prop :=
  ∀ past w, run numChunks parallelLimit past = some w → w.inFlight = [] → w.pc.waits →
    ∃ w', w.step numChunks parallelLimit (.lock false) = some w' ∧ w'.pc.waits = false

/-- **No deadlock**, for all limits that the constructor of the window lets pass: the wait began
with a push in flight, and the last push to end has notified the sender. -/
theorem sendChunked_noDeadlock (numChunks parallelLimit : ℕ) :
    NoDeadlock numChunks (parallelLimit + 1) := by
  intro past w hrun hnil hwaits
  have hinv := run_inv parallelLimit.succ_pos past hrun fun e he => by
    rw [he] at hwaits
    nomatch hwaits
  have hnotified := hinv.notified hwaits hnil
  have hrunning := hinv.running
  rw [hnil] at hrunning
  have hafter : ∀ next : SendChunkedWindow, next.pc.waits = false →
      (w.afterWait next).pc.waits = false := by
    intro next hnext
    rw [afterWait]
    split
    · rfl
    · exact hnext
  cases hpc : w.pc with
  | tokenWait i =>
    rw [hpc] at hrunning
    refine ⟨_, by rw [step, hpc, hnotified]; rfl, hafter _ ?_⟩
    rw [tryToken, if_neg]
    · exact waits_nextPc _ _
    · dsimp only [waiting, List.length_nil] at hrunning
      omega
  | finishedWait =>
    rw [hpc] at hrunning
    refine ⟨_, by rw [step, hpc, hnotified]; rfl, hafter _ ?_⟩
    rw [tryFinish, if_neg fun hne => hne hrunning]
    rfl
  | _ =>
    rw [hpc] at hwaits
    nomatch hwaits

/-! ### Silent loss -/

theorem tryToken_pc_ne (w : SendChunkedWindow) (chunkIdx : ℕ) (e : Exception) :
    (tryToken numChunks parallelLimit w chunkIdx).pc ≠ .thrown e := by
  rw [tryToken]
  split
  · exact SenderPc.noConfusion
  · dsimp only [nextPc]
    split <;> exact SenderPc.noConfusion

theorem tryFinish_pc_ne (w : SendChunkedWindow) (e : Exception) :
    w.tryFinish.pc ≠ .thrown e := by
  rw [tryFinish]
  split <;> exact SenderPc.noConfusion

/-- **The sender throws exactly if a failure is noticed.** The accounts tell whether the sender was
in a wait when it took the mutex. -/
theorem run_thrown_iff (hlimit : 0 < parallelLimit) (past : List WindowEvent) :
    ∀ {w : SendChunkedWindow}, run numChunks parallelLimit past = some w →
      ((∃ e, w.pc = .thrown e) ↔ Noticed numChunks parallelLimit past) := by
  induction past with
  | nil =>
    intro w hrun
    obtain rfl := Option.some_inj.mp hrun
    refine iff_of_false (fun ⟨e, he⟩ => ?_) id
    have hended := ended_nextPc numChunks 0
    rw [show nextPc numChunks 0 = .thrown e from he] at hended
    nomatch hended
  | cons e past ih =>
    intro w' hrun
    obtain ⟨w, hpast, hstep⟩ := run_cons hrun
    have hsome := (run_failed past hpast).1
    by_cases hthrown : ∃ e, w.pc = .thrown e
    · obtain ⟨err, herr⟩ := hthrown
      refine iff_of_true ⟨err, pc_of_thrown herr hstep⟩ ?_
      have hnoticed := (ih hpast).mp ⟨err, herr⟩
      cases e with
      | lock spurious => exact .inr hnoticed
      | pushDone i e => exact hnoticed
    · have hnot := mt (ih hpast).mpr hthrown
      have hwas := (run_inv hlimit past hpast (not_exists.mp hthrown)).wasFull
      cases transition_of_step hstep with
      | getToken i hi =>
        rw [hi] at hwas
        refine iff_of_false (fun ⟨e, he⟩ => tryToken_pc_ne _ _ e he) ?_
        exact not_or.mpr ⟨fun h => Bool.false_ne_true (hwas.mp h.1), hnot⟩
      | finished hf =>
        rw [hf] at hwas
        refine iff_of_false (fun ⟨e, he⟩ => tryFinish_pc_ne _ e he) ?_
        exact not_or.mpr ⟨fun h => Bool.false_ne_true (hwas.mp h.1), hnot⟩
      | wakeToken _ i hi he =>
        rw [he] at hsome
        refine iff_of_false (fun ⟨e, he⟩ => tryToken_pc_ne _ _ e he) ?_
        exact not_or.mpr ⟨fun h => Bool.false_ne_true (hsome.mpr h.2), hnot⟩
      | wakeFinished _ hf he =>
        rw [he] at hsome
        refine iff_of_false (fun ⟨e, he⟩ => tryFinish_pc_ne _ e he) ?_
        exact not_or.mpr ⟨fun h => Bool.false_ne_true (hsome.mpr h.2), hnot⟩
      | throw _ err hpc he =>
        rw [he] at hsome
        exact iff_of_true ⟨err, rfl⟩ (.inl ⟨hwas.mpr hpc, hsome.mp rfl⟩)
      | pushDone i err hmem => exact iff_of_false hthrown hnot

/-- **Silent chunk loss.** When `SendChunked` is over, no chunk was lost silently exactly if no push
failed or a failure was noticed: the window was full at some moment, and a push had failed when the
sender took the mutex the next time. -/
theorem sendChunked_noSilentLoss_iff (hlimit : 0 < parallelLimit)
    (h : Finishes numChunks parallelLimit past w) :
    w.NoSilentLoss numChunks ↔ (SomeFailed past → Noticed numChunks parallelLimit past) := by
  have hrun := h.1
  rw [← run_thrown_iff hlimit past hrun, ← (run_failed past hrun).2]
  refine and_iff_left_of_imp fun hloss hret i hi => ?_
  -- a sender that returned has an account of every chunk
  have hnot : ∀ e, w.pc ≠ .thrown e := fun e he => by rw [hret] at he; nomatch he
  have hinv := run_inv hlimit past hrun hnot
  have htokens := hinv.tokens i
  rw [hret] at htokens
  rcases htokens hi with hmem | hmem | hmem
  · rw [hinv.returned hret] at hmem
    exact absurd hmem List.not_mem_nil
  · exact hmem
  · obtain ⟨e, he⟩ := hloss (List.ne_nil_of_mem hmem)
    exact absurd he (hnot e)

/-- The sender waits for its second token when the first push fails; the last event comes first. -/
def secondTokenWaits : List WindowEvent :=
  [.lock false, .pushDone 0 (some (.runtimeError "")), .lock false, .lock false]

theorem sendChunked_noSilentLoss_secondTokenWaits :
    ∃ w, Finishes 2 1 secondTokenWaits w ∧ Noticed 2 1 secondTokenWaits ∧
      (w.NoSilentLoss 2 ↔ (SomeFailed secondTokenWaits → Noticed 2 1 secondTokenWaits)) := by
  have h : Finishes 2 1 secondTokenWaits
      ⟨.thrown (.runtimeError ""), 1, some (.runtimeError ""), true, [], [], [0]⟩ := by decide
  have hfull : Full 2 1 [.lock false] := by simp [Full, tally]
  exact ⟨_, h, .inl ⟨hfull, 0, _, List.mem_cons_self⟩, sendChunked_noSilentLoss_iff one_pos h⟩

/-- The first push fails before the sender comes back for the second token: `SendChunked` returns as
if nothing had happened. -/
theorem not_noSilentLoss_early :
    ∃ w, Finishes 2 8 [.lock false, .pushDone 1 none, .lock false,
        .pushDone 0 (some (.runtimeError "")), .lock false] w ∧
      w.pc = .returned ∧ ¬w.NoSilentLoss 2 := by
  refine ⟨⟨.returned, 0, some (.runtimeError ""), true, [], [1], [0]⟩, by decide, rfl, ?_⟩
  rintro ⟨hloss, -⟩
  obtain ⟨e, he⟩ := hloss (List.cons_ne_nil _ _)
  nomatch he

end SendChunkedWindow

end Yacl.Link
