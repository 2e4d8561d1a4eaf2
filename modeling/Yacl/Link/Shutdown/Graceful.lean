import Yacl.Link.Shutdown.Actions
import Yacl.Link.Shutdown.Runs
import Yacl.Link.Shutdown.Termination

/-!
# Graceful shutdown

If each side can acknowledge all messages of the other, then a side whose `WaitLinkTaskFinish` has
returned is settled (`Linked.settled`), the steps that are sure to come do not go on forever
(`Linked.acc`), and when there are none left both sides have finished (`Linked.main_eq_done`): all
tasks and handlers are empty then, so the last messages came, so nobody waits for them, and so on
along `WaitLinkTaskFinish`. Conversely, one side never finishes in some run if a bound is missed
(`graceful_iff_fits`). The channels of the source do not check the bounds.
-/

open Bytes
open Yacl.Utils (SegmentTree)

namespace Yacl.Link.Shutdown

/-! ### A side that has finished -/

theorem Linked.settled {e f : Endpoint} (h : Linked e f) (hmain : e.main = .done) :
    e.Settled f := by
  have hthread := h.inv.mainThread
  have hcount := h.peer.outgoing.controls.count (hthread.receivedFin (by rw [hmain]; decide))
  have hreceived := hthread.received (by rw [hmain]; decide)
  have hacked := hthread.acked (by rw [hmain]; decide)
  rw [hcount] at hreceived
  constructor
  · intro i hi
    rw [SegmentTree.contains_eq h.peer.outgoing.inv.ledger.store.ids]
    exact decide_eq_true (hreceived hi)
  · intro i hi
    rw [SegmentTree.contains_eq h.peer.outgoing.controls.acks,
      SegmentTree.contains_eq h.inv.outgoing.inv.ledger.store.ids]
    exact ⟨decide_eq_true (hacked hi), decide_eq_true (h.ackedIds_subset (hacked hi))⟩

/-! ### Termination -/

theorem Linked.progress {s s' : System} (h : Linked s.left s.right) (hs : s.Progress s') :
    Linked s'.left s'.right ∧ weight s'.left s'.right < weight s.left s.right := by
  have hstop : ∀ {e f : Endpoint}, Linked e f → e.queueStopped → e.sendThreadStopped := by
    intro e f h hq
    have hge := h.inv.mainThread.queueStopped.mp hq
    exact h.inv.mainThread.stopped.mpr (by omega)
  obtain ⟨p, a, ha, hs⟩ := hs
  cases p with
  | left =>
    obtain ⟨⟨l, r⟩, hact, rfl⟩ := Option.map_eq_some_iff.mp hs
    exact ⟨h.act hact, act_weight_lt (hstop h) ha hact⟩
  | right =>
    obtain ⟨⟨r, l⟩, hact, rfl⟩ := Option.map_eq_some_iff.mp hs
    have hlt := act_weight_lt (hstop h.symm) ha hact
    rw [weight, weight] at hlt ⊢
    exact ⟨(h.symm.act hact).symm, by dsimp only; omega⟩

theorem Linked.acc {s : System} (h : Linked s.left s.right) :
    Acc (fun s' s => System.Progress s s') s := by
  -- by induction on the weight
  obtain ⟨n, hn⟩ : ∃ n, weight s.left s.right < n := ⟨_, Nat.lt_succ_self _⟩
  induction n generalizing s with
  | zero => exact absurd hn (Nat.not_lt_zero _)
  | succ n ih =>
    refine Acc.intro s fun s' hs' => ?_
    obtain ⟨hlinked, hlt⟩ := h.progress hs'
    exact ih hlinked (by omega)

/-! ### The end -/

/-- One side has nothing to do. -/
structure Endpoint.Idle (e : Endpoint) : Prop where
  tasks : e.tasks = []
  handlers : e.receiver.inbox.handlers = []
  mainStep : e.mainStep = none
  sendThreadStep : e.sendThreadStep = none

theorem Endpoint.Idle.of_forall {e f : Endpoint} (h : ∀ a : Action, a.Required → act e f a = none) :
    e.Idle where
  tasks := by
    by_contra hne
    obtain ⟨requests, tasks, heq⟩ := List.exists_cons_of_ne_nil hne
    have hzero : e.tasks[0]? = some requests := by rw [heq]; rfl
    rcases requests with - | ⟨r, requests⟩
    · have hnone := h (.taskDone 0) trivial
      rw [act, if_pos hzero] at hnone
      contradiction
    · have hnone := h (.deliver 0 0) trivial
      rw [act, hzero] at hnone
      contradiction
  handlers := by
    by_contra hne
    have hnone := h (.passOn 0) trivial
    rw [act, if_pos (List.length_pos_of_ne_nil hne)] at hnone
    contradiction
  mainStep := Option.map_eq_none_iff.mp (h .main trivial)
  sendThreadStep := Option.map_eq_none_iff.mp (h .sendThread trivial)

/-- The thread of the user is asleep, waits for the thread of `SendThread`, or has finished. -/
theorem Endpoint.Idle.main {e : Endpoint} (h : e.Idle) (hrunning : e.main ≠ .running) :
    e.main = .waitFin true ∨ e.main = .waitMsgs true ∨ e.main = .join ∧ e.sendThread ≠ .exited ∨
      e.main = .waitSend true ∨ e.main = .waitAck true ∨ e.main = .done := by
  have hstep := h.mainStep
  rw [Endpoint.mainStep] at hstep
  split at hstep
  · next hmain => exact absurd hmain hrunning
  · contradiction
  · contradiction
  · next hmain => exact .inl hmain
  · split at hstep <;> contradiction
  · next hmain => exact .inr (.inl hmain)
  · split at hstep <;> contradiction
  · contradiction
  · contradiction
  · next hmain =>
    split at hstep
    · contradiction
    · next hne => exact .inr (.inr (.inl ⟨hmain, hne⟩))
  · next hmain => exact .inr (.inr (.inr (.inl hmain)))
  · split at hstep <;> contradiction
  · next hmain => exact .inr (.inr (.inr (.inr (.inl hmain))))
  · split at hstep <;> contradiction
  · next hmain => exact .inr (.inr (.inr (.inr (.inr hmain))))

theorem Endpoint.Idle.sendThread {e : Endpoint} (h : e.Idle) :
    e.sendThread = .popWait ∨ (∃ q, e.sendThread = .throttle q true) ∨ e.sendThread = .exited := by
  have hstep := h.sendThreadStep
  rw [Endpoint.sendThreadStep] at hstep
  split at hstep
  · contradiction
  · split at hstep <;> contradiction
  · next hpc => exact .inl hpc
  · contradiction
  · next q hpc => exact .inr (.inl ⟨q, hpc⟩)
  · split at hstep <;> contradiction
  · split at hstep <;> contradiction
  · next hpc => exact .inr (.inr hpc)

namespace Linked

variable {e f : Endpoint}

/-- Without tasks and handlers, everything that was submitted was passed on. -/
theorem passed_of_pending (h : Linked e f) (he : e.Idle) (hf : f.Idle) {k : Str} {v : List Byte}
    (hsent : (k, v) ∈ e.sent) (hpending : e.Pending f.receiver (k, v)) :
    (k, v.map some) ∈ f.receiver.history.passed := by
  have hcalls := h.inv.outgoing.inv.inbox.mem_calls h.honest.sent_valid h.honest.bytesPerChunk_pos
    hsent fun r hr => by
      refine (hpending r hr).resolve_right ?_
      rintro ⟨task, htask, -⟩
      rw [he.tasks] at htask
      exact absurd htask List.not_mem_nil
  rwa [hf.handlers, List.nil_append] at hcalls

theorem control_passed (h : Linked e f) (he : e.Idle) (hf : f.Idle) {k : Str} {v : List Byte}
    (hc : (k, v) ∈ e.controls) : (k, v.map some) ∈ f.receiver.history.passed :=
  h.passed_of_pending he hf (Endpoint.mem_sent.mpr (.inr (.inr hc)))
    (h.inv.outgoing.controls_pending _ hc)

theorem mem_receivedIds_of_idle (h : Linked e f) (he : e.Idle) (hf : f.Idle) {q : ℕ}
    (hq : q ∈ Finset.Icc 1 e.sender.msgs.length) (hqueue : ∀ x ∈ e.queue, q < x.2.2) :
    q ∈ receivedIds f.receiver.history.passed := by
  obtain ⟨hpos, hle⟩ := Finset.mem_Icc.mp hq
  obtain ⟨m, hm⟩ : ∃ m, e.sender.msgs[q - 1]? = some m :=
    ⟨_, List.getElem?_eq_getElem (by omega)⟩
  have hseq : e.sender.seqId (q - 1) = q := by
    rw [Sender.seqId, if_neg (by rw [h.inv.outgoing.seqIds]; decide)]
    omega
  rcases h.inv.outgoing.msgs_pending (q - 1) m hm with hin | hpending
  · have hlt := hqueue _ hin
    rw [Endpoint.entry, hseq] at hlt
    exact absurd hlt (lt_irrefl q)
  · refine mem_receivedIds.mpr ⟨hpos, _, h.passed_of_pending he hf
      (Endpoint.mem_sent.mpr (.inl ⟨_, m, hm, rfl⟩)) hpending, ?_⟩
    rw [Sender.callSeq_channelKey hm, hseq]

/-- What the other side has received it has acknowledged, if it has called `WaitLinkTaskFinish`. -/
theorem mem_ackedIds_of_idle (h : Linked e f) (he : e.Idle) (hf : f.Idle)
    (hphase : 2 ≤ f.main.phase) {q : ℕ} (hq : q ∈ receivedIds f.receiver.history.passed) :
    q ∈ ackedIds e.receiver.history.passed := by
  have hledger := h.inv.outgoing.inv.ledger
  have hpos := (mem_receivedIds.mp hq).1
  have hle := h.symm.receivedIds_le q hq
  have hlt := e.sender.length_lt
  have hempty := hledger.store.finishing (h.peer.mainThread.waitingFinish hphase)
  have hcount := hledger.store.ledger q hpos
  rw [hledger.thrown_eq h.honest, hempty, if_pos hq, List.map_nil] at hcount
  have htaken : q ∈ f.receiver.taken := List.count_pos_iff.mp (by rw [Receiver.taken]; omega)
  have hc : (kAckKey, toDecimal q) ∈ f.controls := by
    refine (h.peer.announced.taken q htaken hpos).resolve_left fun hacking => ?_
    rw [h.peer.mainThread.acking (by omega)] at hacking
    exact absurd hacking List.not_mem_nil
  exact mem_ackedIds.mpr ⟨_, h.symm.control_passed hf he hc, callAck_toDecimal (by omega)⟩

theorem queue_eq_nil (h : Linked e f) (he : e.Idle) (hf : f.Idle) (hphase : 2 ≤ f.main.phase) :
    e.queue = [] := by
  rcases he.sendThread with hpc | ⟨q, hpc⟩ | hpc
  · exact (h.inv.sendThread.popWait hpc).1
  · -- nobody waits for acknowledgements, because all of them came
    obtain ⟨hle, hqueue⟩ := h.inv.sendThread.throttle q true hpc
    refine absurd (fun a ha => ?_) (h.inv.sendThread.asleep q hpc)
    obtain ⟨hpos, haq⟩ := Finset.mem_Icc.mp ha
    refine h.mem_ackedIds_of_idle he hf hphase (h.mem_receivedIds_of_idle he hf ?_ ?_)
    · exact Finset.mem_Icc.mpr ⟨hpos, haq.trans hle⟩
    · exact fun x hx => lt_of_le_of_lt haq (hqueue x hx)
  · exact h.inv.sendThread.exited hpc

/-- **A side that has nothing to do has finished**, if both users have called
`WaitLinkTaskFinish`. -/
theorem main_eq_done (h : Linked e f) (he : e.Idle) (hf : f.Idle) (hmain : e.main ≠ .running)
    (hmain' : f.main ≠ .running) : e.main = .done := by
  have hphase : ∀ {g : Endpoint}, g.Idle → g.main ≠ .running → 3 ≤ g.main.phase := by
    intro g hg hne
    rcases hg.main hne with hm | hm | ⟨hm, -⟩ | hm | hm | hm <;> rw [hm] <;> decide
  have hfin : e.receiver.channel.receivedFin := by
    have hpassed := h.symm.control_passed hf he (h.peer.announced.fin (hphase hf hmain'))
    exact h.peer.outgoing.controls.fin.mpr (List.mem_map.mpr ⟨_, hpassed, rfl⟩)
  have hreceived : Finset.Icc 1 f.sender.msgs.length ⊆ receivedIds e.receiver.history.passed := by
    have hqueue := h.symm.queue_eq_nil hf he ((hphase he hmain).trans' (by decide))
    intro q hq
    refine h.symm.mem_receivedIds_of_idle hf he hq ?_
    rw [hqueue]
    nofun
  have hacked : Finset.Icc 1 e.sender.msgs.length ⊆ ackedIds e.receiver.history.passed := by
    have hge : 2 ≤ f.main.phase := (hphase hf hmain').trans' (by decide)
    have hqueue := h.queue_eq_nil he hf hge
    intro q hq
    refine h.mem_ackedIds_of_idle he hf hge (h.mem_receivedIds_of_idle he hf hq ?_)
    rw [hqueue]
    nofun
  rcases he.main hmain with hm | hm | ⟨hm, hne⟩ | hm | hm | hm
  · have hno := h.inv.mainThread.waitFin hm
    rw [hfin] at hno
    nomatch hno
  · have hno := h.inv.mainThread.waitMsgs hm
    rw [h.peer.outgoing.controls.count hfin] at hno
    exact absurd hreceived hno
  · -- the thread of `SendThread` was told to stop
    rcases he.sendThread with hpc | ⟨q, hpc⟩ | hpc
    · have hstopped := h.inv.mainThread.queueStopped.mpr (by rw [hm]; decide)
      rw [(h.inv.sendThread.popWait hpc).2] at hstopped
      nomatch hstopped
    · obtain ⟨hle, -⟩ := h.inv.sendThread.throttle q true hpc
      refine absurd (fun a ha => hacked ?_) (h.inv.sendThread.asleep q hpc)
      obtain ⟨hpos, haq⟩ := Finset.mem_Icc.mp ha
      exact Finset.mem_Icc.mpr ⟨hpos, haq.trans hle⟩
    · exact absurd hpc hne
  · exact absurd he.tasks (h.inv.mainThread.waitSend hm)
  · exact absurd hacked (h.inv.mainThread.waitAck hm)
  · exact hm

end Linked

theorem Config.graceful_of_fits (c : Config) (hleft : c.left.Fits c.right)
    (hright : c.right.Fits c.left) : c.Graceful where
  settled s hs := by
    have h := hs.linked hleft hright
    exact ⟨h.settled, h.symm.settled⟩
  terminates s hs _ := (hs.linked hleft hright).acc
  finished s hs hclosing hterminal := by
    have h := hs.linked hleft hright
    have he : s.left.Idle := by
      refine .of_forall (f := s.right) fun a ha => ?_
      by_contra hne
      obtain ⟨x, hx⟩ := Option.ne_none_iff_exists'.mp hne
      exact hterminal _ ⟨.left, a, ha, Option.map_eq_some_iff.mpr ⟨x, hx, rfl⟩⟩
    have hf : s.right.Idle := by
      refine .of_forall (f := s.left) fun a ha => ?_
      by_contra hne
      obtain ⟨x, hx⟩ := Option.ne_none_iff_exists'.mp hne
      exact hterminal _ ⟨.right, a, ha, Option.map_eq_some_iff.mpr ⟨x, hx, rfl⟩⟩
    exact ⟨h.main_eq_done he hf hclosing.1 hclosing.2,
      h.symm.main_eq_done hf he hclosing.2 hclosing.1⟩

/-- **The shutdown is graceful exactly if each side can acknowledge all messages of the other.** -/
theorem Config.graceful_iff_fits (c : Config) :
    c.Graceful ↔ c.left.Fits c.right ∧ c.right.Fits c.left := by
  refine ⟨fun h => ?_, fun h => c.graceful_of_fits h.1 h.2⟩
  by_contra hnot
  refine not_graceful_of_endsLost ?_ h
  exact (not_and_or.mp hnot).imp endsLost_of_not_fits endsLost_of_not_fits

/-- A throttle window of the largest size that its type allows, and one message. -/
def wideWindow : Config where
  left := ⟨0, 524288, 2 ^ 64 - 1, 1, by decide, by decide, by decide⟩
  right := ⟨1, 524288, 0, 0, by decide, by decide, by decide⟩

theorem not_graceful_wideWindow : ¬wideWindow.Graceful := by
  have hpos : 0 < 10 ^ wideWindow.right.bytesPerChunk := Nat.pow_pos (by decide)
  have hwindow : wideWindow.left.throttleWindowSize = 2 ^ 64 - 1 := rfl
  exact not_graceful_of_endsLost
    (.inl (endsLost_throttle _ _ (by decide) (by decide) (by omega)))

end Yacl.Link.Shutdown
