import Yacl.Link.Shutdown.Accounts

/-!
# The invariant of two channels

Where the threads of a side are, and what they know there: what the thread of the user has waited
for so far holds (`Endpoint.MainThread`), and a thread that is asleep waits for something that has
not come yet (also `Endpoint.SendThread`). With the accounts of both sides this is kept by every
action (`Linked.act`), provided that each side can acknowledge all messages of the other
(`ChannelConfig.Fits`).
-/

open Bytes
open Yacl.Utils (SegmentTree)

namespace Yacl.Link.Shutdown

/-! ### Notifications -/

section Notify

variable {cond : Option Cond}

theorem MainPc.of_notify_waitFin {pc : MainPc} (h : cond.elim pc pc.notify = .waitFin true) :
    pc = .waitFin true ∧ cond ≠ some .ackFin := by
  rcases cond with - | - | - <;> cases pc <;> simp_all [MainPc.notify]

theorem MainPc.of_notify_waitMsgs {pc : MainPc} (h : cond.elim pc pc.notify = .waitMsgs true) :
    pc = .waitMsgs true ∧ cond ≠ some .msgDb := by
  rcases cond with - | - | - <;> cases pc <;> simp_all [MainPc.notify]

theorem MainPc.of_notify_waitSend {pc : MainPc} (h : cond.elim pc pc.notify = .waitSend true) :
    pc = .waitSend true := by
  rcases cond with - | - | - <;> cases pc <;> simp_all [MainPc.notify]

theorem MainPc.of_notify_waitAck {pc : MainPc} (h : cond.elim pc pc.notify = .waitAck true) :
    pc = .waitAck true ∧ cond ≠ some .ackFin := by
  rcases cond with - | - | - <;> cases pc <;> simp_all [MainPc.notify]

theorem SendThreadPc.of_notify_throttle {pc : SendThreadPc} {q : ℕ} {b : Bool}
    (h : cond.elim pc pc.notify = .throttle q b) :
    ∃ b', pc = .throttle q b' ∧ (b = true → b' = true ∧ cond ≠ some .ackFin) := by
  rcases cond with - | - | - <;> cases pc <;> simp_all [SendThreadPc.notify]

theorem SendThreadPc.of_notify {pc pc' : SendThreadPc} (h : cond.elim pc pc.notify = pc')
    (hne : ∀ q b, pc' ≠ .throttle q b) : pc = pc' := by
  rcases cond with - | - | - <;> rcases pc with - | - | - | - | ⟨q, b⟩ | - | - <;>
    first
    | exact h
    | exact absurd h.symm (hne _ _)

end Notify

/-! ### The threads -/

/-- The thread of the user goes on by at most one place, and submits or stops nothing. -/
def MainPc.Follows (pc pc' : MainPc) : Prop :=
  pc'.phase ≤ pc.phase + 1 ∧ (3 ≤ pc'.phase ↔ 3 ≤ pc.phase) ∧ (6 ≤ pc'.phase ↔ 6 ≤ pc.phase) ∧
    (7 ≤ pc'.phase ↔ 7 ≤ pc.phase)

instance (pc pc' : MainPc) : Decidable (pc.Follows pc') :=
  inferInstanceAs (Decidable (_ ∧ _ ∧ _ ∧ _))

namespace Endpoint

/-- **The thread of the user.** -/
structure MainThread (e : Endpoint) : Prop where
  acking : 1 ≤ e.main.phase → e.acking = []
  waitingFinish : 2 ≤ e.main.phase → e.receiver.channel.waitingFinish
  receivedFin : 4 ≤ e.main.phase → e.receiver.channel.receivedFin
  received : 5 ≤ e.main.phase →
    Finset.Icc 1 e.receiver.channel.peerSentMsgCount ⊆ receivedIds e.receiver.history.passed
  stopped : e.sendThreadStopped ↔ 6 ≤ e.main.phase
  queueStopped : e.queueStopped ↔ 7 ≤ e.main.phase
  joined : 8 ≤ e.main.phase → e.sendThread = .exited
  acked : 10 ≤ e.main.phase →
    Finset.Icc 1 e.sender.msgs.length ⊆ ackedIds e.receiver.history.passed
  waitFin : e.main = .waitFin true → e.receiver.channel.receivedFin = false
  waitMsgs : e.main = .waitMsgs true →
    ¬Finset.Icc 1 e.receiver.channel.peerSentMsgCount ⊆ receivedIds e.receiver.history.passed
  waitSend : e.main = .waitSend true → e.tasks ≠ []
  waitAck : e.main = .waitAck true →
    ¬Finset.Icc 1 e.sender.msgs.length ⊆ ackedIds e.receiver.history.passed

/-- **The thread of `SendThread`.** -/
structure SendThread (e : Endpoint) : Prop where
  drained : e.sendThread = .drain ∨ e.sendThread = .exited → e.sendThreadStopped
  exited : e.sendThread = .exited → e.queue = []
  popWait : e.sendThread = .popWait → e.queue = [] ∧ e.queueStopped = false
  throttle : ∀ q b, e.sendThread = .throttle q b →
    q ≤ e.sender.msgs.length ∧ ∀ x ∈ e.queue, q < x.2.2
  asleep : ∀ q, e.sendThread = .throttle q true →
    ¬Finset.Icc 1 q ⊆ ackedIds e.receiver.history.passed

/-- What holds when the thread of the user arrives somewhere. -/
def Enter (e : Endpoint) : MainPc → Prop
  | .running => True
  | .stop => e.acking = []
  | .fin => e.receiver.channel.waitingFinish
  | .waitFin asleep => asleep → e.receiver.channel.receivedFin = false
  | .waitMsgs asleep => e.receiver.channel.receivedFin ∧
    (asleep → ¬Finset.Icc 1 e.receiver.channel.peerSentMsgCount ⊆
      receivedIds e.receiver.history.passed)
  | .stopSend =>
    Finset.Icc 1 e.receiver.channel.peerSentMsgCount ⊆ receivedIds e.receiver.history.passed
  | .emptyNotify => True
  | .join => True
  | .waitSend asleep => e.sendThread = .exited ∧ (asleep → e.tasks ≠ [])
  | .waitAck asleep => asleep →
    ¬Finset.Icc 1 e.sender.msgs.length ⊆ ackedIds e.receiver.history.passed
  | .done => Finset.Icc 1 e.sender.msgs.length ⊆ ackedIds e.receiver.history.passed

variable {e : Endpoint} {o : Outcome Receiver}

/-- **The thread of the user goes on by one place**, or falls asleep. -/
theorem MainThread.move (h : e.MainThread) {pc : MainPc} {stopped queueStopped : Bool}
    {sendThread : SendThreadPc} (hle : pc.phase ≤ e.main.phase + 1)
    (hstopped : stopped ↔ 6 ≤ pc.phase) (hqueue : queueStopped ↔ 7 ≤ pc.phase)
    (hsend : e.sendThread = .exited → sendThread = .exited) (henter : e.Enter pc) :
    MainThread { e with
      main := pc
      sendThreadStopped := stopped
      queueStopped := queueStopped
      sendThread := sendThread } where
  acking hge := by
    rcases Nat.lt_or_ge e.main.phase 1 with hlt | hge'
    · have hpc : pc.phase = 1 := by
        dsimp only at hge
        omega
      cases pc <;> first | exact henter | exact absurd hpc (by simp [MainPc.phase])
    · exact h.acking hge'
  waitingFinish hge := by
    rcases Nat.lt_or_ge e.main.phase 2 with hlt | hge'
    · have hpc : pc.phase = 2 := by
        dsimp only at hge
        omega
      cases pc <;> first | exact henter | exact absurd hpc (by simp [MainPc.phase])
    · exact h.waitingFinish hge'
  receivedFin hge := by
    rcases Nat.lt_or_ge e.main.phase 4 with hlt | hge'
    · have hpc : pc.phase = 4 := by
        dsimp only at hge
        omega
      cases pc <;> first | exact henter.1 | exact absurd hpc (by simp [MainPc.phase])
    · exact h.receivedFin hge'
  received hge := by
    rcases Nat.lt_or_ge e.main.phase 5 with hlt | hge'
    · have hpc : pc.phase = 5 := by
        dsimp only at hge
        omega
      cases pc <;> first | exact henter | exact absurd hpc (by simp [MainPc.phase])
    · exact h.received hge'
  stopped := hstopped
  queueStopped := hqueue
  joined hge := by
    refine hsend ?_
    rcases Nat.lt_or_ge e.main.phase 8 with hlt | hge'
    · have hpc : pc.phase = 8 := by
        dsimp only at hge
        omega
      cases pc <;> first | exact henter.1 | exact absurd hpc (by simp [MainPc.phase])
    · exact h.joined hge'
  acked hge := by
    rcases Nat.lt_or_ge e.main.phase 10 with hlt | hge'
    · have hpc : pc.phase = 10 := by
        dsimp only at hge
        omega
      cases pc <;> first | exact henter | exact absurd hpc (by simp [MainPc.phase])
    · exact h.acked hge'
  waitFin hpc := by
    obtain rfl : pc = .waitFin true := hpc
    exact henter rfl
  waitMsgs hpc := by
    obtain rfl : pc = .waitMsgs true := hpc
    exact henter.2 rfl
  waitSend hpc := by
    obtain rfl : pc = .waitSend true := hpc
    exact henter.2 rfl
  waitAck hpc := by
    obtain rfl : pc = .waitAck true := hpc
    exact henter rfl

/-- **An event at this side**, for the thread of the user. -/
theorem MainThread.apply (h : e.MainThread) (heffect : Effect e.receiver o)
    (hcount : e.receiver.channel.receivedFin →
      o.state.channel.peerSentMsgCount = e.receiver.channel.peerSentMsgCount) :
    (e.apply o).MainThread := by
  rw [apply_eq]
  have hphase := MainPc.phase_notify e.main o.notified
  constructor <;> dsimp only
  · rw [hphase]
    exact h.acking
  · rw [hphase]
    exact fun hge => heffect.waiting (h.waitingFinish hge)
  · rw [hphase]
    exact fun hge => heffect.fin (h.receivedFin hge)
  · rw [hphase]
    intro hge
    rw [hcount (h.receivedFin (by omega))]
    exact (h.received hge).trans heffect.received
  · rw [hphase]
    exact h.stopped
  · rw [hphase]
    exact h.queueStopped
  · rw [hphase]
    intro hge
    rw [h.joined hge]
    rcases o.notified with - | - | - <;> rfl
  · rw [hphase]
    exact fun hge => (h.acked hge).trans heffect.acked
  · intro hpc
    obtain ⟨hpc, hquiet⟩ := MainPc.of_notify_waitFin hpc
    rw [(heffect.ackFin hquiet).2]
    exact h.waitFin hpc
  · intro hpc
    obtain ⟨hpc, hquiet⟩ := MainPc.of_notify_waitMsgs hpc
    rw [heffect.msgDb hquiet, hcount (h.receivedFin (by rw [hpc]; decide))]
    exact h.waitMsgs hpc
  · intro hpc hnil
    exact h.waitSend (MainPc.of_notify_waitSend hpc) (List.append_eq_nil_iff.mp hnil).1
  · intro hpc
    obtain ⟨hpc, hquiet⟩ := MainPc.of_notify_waitAck hpc
    rw [(heffect.ackFin hquiet).1]
    exact h.waitAck hpc

/-- **An event at this side**, for the thread of `SendThread`. -/
theorem SendThread.apply (h : e.SendThread) (heffect : Effect e.receiver o) :
    (e.apply o).SendThread := by
  rw [apply_eq]
  constructor <;> dsimp only
  · rintro (hpc | hpc)
    · exact h.drained (.inl (SendThreadPc.of_notify hpc nofun))
    · exact h.drained (.inr (SendThreadPc.of_notify hpc nofun))
  · exact fun hpc => h.exited (SendThreadPc.of_notify hpc nofun)
  · exact fun hpc => h.popWait (SendThreadPc.of_notify hpc nofun)
  · intro q b hpc
    obtain ⟨b', hpc, -⟩ := SendThreadPc.of_notify_throttle hpc
    exact h.throttle q b' hpc
  · intro q hpc
    obtain ⟨b', hpc, hb'⟩ := SendThreadPc.of_notify_throttle hpc
    obtain ⟨rfl, hquiet⟩ := hb' rfl
    rw [(heffect.ackFin hquiet).1]
    exact h.asleep q hpc

/-- Before `WaitLinkTaskFinish` nothing was stopped, and the thread of the user waits for
nothing. -/
theorem MainThread.of_running (hmain : e.main = .running) (hstopped : e.sendThreadStopped = false)
    (hqueue : e.queueStopped = false) : e.MainThread := by
  have hphase : e.main.phase = 0 := by rw [hmain]; rfl
  constructor
  · exact fun hge => absurd hge (by omega)
  · exact fun hge => absurd hge (by omega)
  · exact fun hge => absurd hge (by omega)
  · exact fun hge => absurd hge (by omega)
  · rw [hstopped, hphase]
    decide
  · rw [hqueue, hphase]
    decide
  · exact fun hge => absurd hge (by omega)
  · exact fun hge => absurd hge (by omega)
  · exact fun hpc => nomatch hmain.symm.trans hpc
  · exact fun hpc => nomatch hmain.symm.trans hpc
  · exact fun hpc => nomatch hmain.symm.trans hpc
  · exact fun hpc => nomatch hmain.symm.trans hpc

theorem MainThread.flags (h : e.MainThread) (hphase : e.main.phase < 6) :
    e.sendThreadStopped = false ∧ e.queueStopped = false := by
  refine ⟨Bool.eq_false_iff.mpr fun hs => ?_, Bool.eq_false_iff.mpr fun hq => ?_⟩
  · have hge := h.stopped.mp hs
    omega
  · have hge := h.queueStopped.mp hq
    omega

theorem main_eq_running (hphase : e.main.phase = 0) : e.main = .running := by
  cases hmain : e.main <;> first | rfl | (rw [hmain] at hphase; nomatch hphase)

/-- **The invariant of one side**; `s` is the receiving half of the other side. -/
structure Inv (e : Endpoint) (s : Receiver) : Prop where
  outgoing : e.Outgoing s
  announced : e.Announced
  mainThread : e.MainThread
  sendThread : e.SendThread

theorem covered_iff {ids : SegmentTree} {set : Finset ℕ} (h : ids.Represents set) {n : ℕ}
    (hsub : set ⊆ Finset.Icc 1 n) : n = 0 ∨ covered ids n ↔ Finset.Icc 1 n ⊆ set := by
  rcases Nat.eq_zero_or_pos n with rfl | hpos
  · exact iff_of_true (.inl rfl) (Finset.empty_subset _)
  · have hcover := SegmentTree.covers_Icc_iff h hpos hsub
    have hset : set = Finset.Icc 1 n ↔ Finset.Icc 1 n ⊆ set :=
      ⟨fun heq => heq ▸ Finset.Subset.refl _, fun hle => Finset.Subset.antisymm hsub hle⟩
    rw [or_iff_right (by omega), ← hset, ← hcover, covered]
    simp only [Bool.not_or, Bool.not_not, Bool.and_eq_true, Bool.not_eq_true',
      decide_eq_false_iff_not, Nat.not_lt, and_assoc]

end Endpoint

/-! ### Both sides -/

/-- **The invariant of two sides** that can acknowledge each other's messages. -/
structure Linked (e f : Endpoint) : Prop where
  inv : e.Inv f.receiver
  peer : f.Inv e.receiver
  fits : e.config.Fits f.config
  peer_fits : f.config.Fits e.config

namespace Linked

variable {e f : Endpoint}

theorem symm (h : Linked e f) : Linked f e := ⟨h.peer, h.inv, h.peer_fits, h.fits⟩

/-- The numbers that this side received are those of messages of the other side. -/
theorem receivedIds_le (h : Linked e f) :
    ∀ a ∈ receivedIds e.receiver.history.passed, a ≤ f.sender.msgs.length :=
  h.peer.outgoing.inv.ledger.store.ids_le

theorem msgs_le (h : Linked e f) : f.sender.msgs.length ≤ 10 ^ e.sender.bytesPerChunk := by
  rw [h.inv.outgoing.bytesPerChunk_eq]
  exact h.peer.outgoing.msgs_le.trans h.peer_fits.1

theorem honest (h : Linked e f) : Honest e.sender.bytesPerChunk e.sender.msgs.length
    f.sender.msgs.length e.sent e.sender.Orig :=
  Endpoint.honest h.inv.outgoing.keys_ne h.inv.announced h.receivedIds_le h.msgs_le
    f.sender.length_lt

/-- The numbers that were acknowledged are those of messages that the other side received. -/
theorem ackedIds_subset (h : Linked e f) :
    ackedIds e.receiver.history.passed ⊆ receivedIds f.receiver.history.passed := by
  intro a ha
  obtain ⟨⟨k, w⟩, hmem, hack⟩ := mem_ackedIds.mp ha
  have hk : k = kAckKey := by
    by_contra hne
    rw [callAck, if_neg hne] at hack
    contradiction
  subst hk
  obtain ⟨v, rfl, hc⟩ := h.peer.outgoing.mem_controls (.inl rfl) hmem
  rcases h.peer.announced.controls_eq _ hc with ⟨b, hb, heq⟩ | ⟨-, heq⟩
  · obtain ⟨-, rfl⟩ := Prod.mk.inj heq
    have hle := h.symm.receivedIds_le b hb
    have hlt := e.sender.length_lt
    rw [callAck_toDecimal (by omega), Option.some_inj] at hack
    exact hack ▸ hb
  · exact absurd (Prod.mk.inj heq).1 (by decide)

theorem receivedIds_subset (h : Linked e f) :
    receivedIds e.receiver.history.passed ⊆ Finset.Icc 1 f.sender.msgs.length :=
  fun a ha => Finset.mem_Icc.mpr ⟨(mem_receivedIds.mp ha).1, h.receivedIds_le a ha⟩

theorem ackedIds_subset_Icc (h : Linked e f) :
    ackedIds e.receiver.history.passed ⊆ Finset.Icc 1 e.sender.msgs.length :=
  h.ackedIds_subset.trans h.symm.receivedIds_subset

/-- **An event at one side.** -/
theorem event (h : Linked e f) (ev : Event) (hev : ev.Allowed f.sender.bytesPerChunk f.sent) :
    Linked (e.apply (e.receiver.step ev)) f := by
  obtain ⟨heffect, houtgoing⟩ := h.peer.outgoing.event h.symm.honest hev
  have hacks : ∀ a ∈ (e.receiver.step ev).acks,
      a ∈ receivedIds (e.receiver.step ev).state.history.passed := by
    intro a ha
    obtain ⟨hpos, htaken⟩ := heffect.acks a ha
    exact houtgoing.inv.ledger.mem_receivedIds htaken hpos
  have hcount : e.receiver.channel.receivedFin →
      (e.receiver.step ev).state.channel.peerSentMsgCount =
        e.receiver.channel.peerSentMsgCount := by
    intro hfin
    rw [h.peer.outgoing.controls.count hfin, houtgoing.controls.count (heffect.fin hfin)]
  have hannounced := h.inv.announced.apply heffect hacks
  have hsender : (e.apply (e.receiver.step ev)).sender = e.sender := by rw [Endpoint.apply_eq]
  have hreceiver : (e.apply (e.receiver.step ev)).receiver = (e.receiver.step ev).state := by
    rw [Endpoint.apply_eq]
  have hconfig : (e.apply (e.receiver.step ev)).config = e.config := by rw [Endpoint.apply_eq]
  have hhonest := Endpoint.honest
    (by rw [hsender]; exact h.inv.outgoing.keys_ne) hannounced
    (by rw [hreceiver]; exact houtgoing.inv.ledger.store.ids_le)
    (by rw [hsender]; exact h.msgs_le) f.sender.length_lt
  refine ⟨⟨?_, hannounced, h.inv.mainThread.apply heffect hcount, h.inv.sendThread.apply heffect⟩,
    ⟨?_, h.peer.announced, h.peer.mainThread, h.peer.sendThread⟩, ?_, ?_⟩
  · have hvalid := hhonest.sent_valid
    rw [Endpoint.apply_eq] at hvalid ⊢
    refine (h.inv.outgoing.submitControls
      ((e.receiver.step ev).acks.map fun a => (kAckKey, toDecimal a))
      (((e.receiver.step ev).acks.map fun a => (kAckKey, toDecimal a)).reverse ++ e.controls)
      (fun t => ?_) hvalid).congr rfl rfl rfl ?_ rfl
    · rw [List.mem_append, List.mem_reverse]
    · rw [List.map_map]
      rfl
  · rw [hreceiver]
    exact houtgoing
  · rw [hconfig]
    exact h.fits
  · rw [hconfig]
    exact h.peer_fits

theorem move (h : Linked e f) {pc : MainPc} (hfollows : e.main.Follows pc) (henter : e.Enter pc) :
    Linked { e with main := pc } f where
  inv :=
    { outgoing := h.inv.outgoing.congr rfl rfl rfl rfl rfl
      announced :=
        { h.inv.announced with
          controls_eq := fun t ht =>
            (h.inv.announced.controls_eq t ht).imp_right fun hc =>
              ⟨hfollows.2.1.mpr hc.1, hc.2⟩
          fin := fun hge => h.inv.announced.fin (hfollows.2.1.mp hge) }
      mainThread := h.inv.mainThread.move hfollows.1
        (h.inv.mainThread.stopped.trans hfollows.2.2.1.symm)
        (h.inv.mainThread.queueStopped.trans hfollows.2.2.2.symm) id henter
      sendThread := { h.inv.sendThread with } }
  peer := h.peer
  fits := h.fits
  peer_fits := h.peer_fits

theorem sendMove (h : Linked e f) {pc : SendThreadPc} {queue : List (Str × List Byte × ℕ)}
    {tasks : List (List Request)} (hne : e.sendThread ≠ .exited)
    (houtgoing : Endpoint.Outgoing { e with queue := queue, tasks := tasks } f.receiver)
    (hsend : Endpoint.SendThread { e with sendThread := pc, queue := queue, tasks := tasks }) :
    Linked { e with sendThread := pc, queue := queue, tasks := tasks } f where
  inv :=
    { outgoing := houtgoing.congr rfl rfl rfl rfl rfl
      announced := { h.inv.announced with }
      mainThread :=
        { h.inv.mainThread with
          joined := fun hge => absurd (h.inv.mainThread.joined hge) hne
          waitSend := fun hmain => absurd (h.inv.mainThread.joined (by
            have hmain' : e.main = .waitSend true := hmain
            rw [hmain']
            decide)) hne }
      sendThread := hsend }
  peer := h.peer
  fits := h.fits
  peer_fits := h.peer_fits

theorem withTasks (h : Linked e f) {tasks : List (List Request)}
    (houtgoing : Endpoint.Outgoing { e with tasks := tasks } f.receiver)
    (hwait : e.main = .waitSend true → tasks ≠ []) : Linked { e with tasks := tasks } f where
  inv :=
    { outgoing := houtgoing
      announced := { h.inv.announced with }
      mainThread := { h.inv.mainThread with waitSend := hwait }
      sendThread := { h.inv.sendThread with } }
  peer := h.peer
  fits := h.fits
  peer_fits := h.peer_fits

end Linked

end Yacl.Link.Shutdown
