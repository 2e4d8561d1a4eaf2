import Yacl.Link.Shutdown.Invariant

/-!
# Every action keeps the invariant

One lemma for each action of a side, and for each step of its two threads (`Linked.act`). From them
the invariant holds in every state that two channels can reach, if each side can acknowledge all
messages of the other (`Reachable.linked`).
-/

open Bytes
open Yacl.Utils (SegmentTree)

namespace Yacl.Link.Shutdown

namespace Linked

variable {e e' f f' : Endpoint}

/-! ### The user -/

theorem recv_notified (s : Receiver) (key : Str) : (s.step (.recv key)).notified = none := by
  rw [Receiver.step]
  split
  · rfl
  · split <;> rfl

/-- **The user looks for a message.** -/
theorem recv (h : Linked e f) (hmain : e.main = .running) (key : Str) :
    Linked { e with
      receiver := (e.receiver.step (.recv key)).state
      acking := (e.receiver.step (.recv key)).acks ++ e.acking } f := by
  have hev : (Event.recv key).Allowed f.sender.bytesPerChunk f.sent := trivial
  obtain ⟨heffect, houtgoing⟩ := h.peer.outgoing.event h.symm.honest hev
  have hflags := h.inv.mainThread.flags (by rw [hmain]; decide)
  have hquiet : ackedIds (e.receiver.step (.recv key)).state.history.passed =
      ackedIds e.receiver.history.passed :=
    (heffect.ackFin (by rw [recv_notified]; nofun)).1
  refine ⟨⟨h.inv.outgoing.congr rfl rfl rfl rfl rfl, ⟨?_, ?_, ?_, ?_⟩, ?_, ?_⟩,
    ⟨houtgoing, h.peer.announced, h.peer.mainThread, h.peer.sendThread⟩, h.fits, h.peer_fits⟩
  · intro t ht
    refine (h.inv.announced.controls_eq t ht).imp_left ?_
    rintro ⟨a, ha, rfl⟩
    exact ⟨a, heffect.received ha, rfl⟩
  · exact h.inv.announced.fin
  · intro a ha hpos
    rcases heffect.taken a ha with ha | ha | ha
    · exact (h.inv.announced.taken a ha hpos).imp_left fun hc => List.mem_append_right _ hc
    · exact .inl (List.mem_append_left _ ha)
    · omega
  · intro a ha
    rcases List.mem_append.mp ha with ha | ha
    · obtain ⟨hpos, htaken⟩ := heffect.acks a ha
      exact houtgoing.inv.ledger.mem_receivedIds htaken hpos
    · exact heffect.received (h.inv.announced.acking_received a ha)
  · exact .of_running hmain hflags.1 hflags.2
  · refine { h.inv.sendThread with asleep := fun q hpc => ?_ }
    rw [hquiet]
    exact h.inv.sendThread.asleep q hpc

/-- **A thread in `Recv` acknowledges its message.** -/
theorem ackRecv (h : Linked e f) {i a : ℕ} (hi : e.acking[i]? = some a) :
    Linked { e.submitControl kAckKey (toDecimal a) with acking := e.acking.eraseIdx i } f := by
  have hphase : e.main.phase = 0 := by
    by_contra hne
    rw [h.inv.mainThread.acking (by omega)] at hi
    nomatch hi
  have hflags := h.inv.mainThread.flags (by omega)
  have hannounced : Endpoint.Announced
      { e.submitControl kAckKey (toDecimal a) with acking := e.acking.eraseIdx i } := by
    refine ⟨?_, ?_, ?_, ?_⟩
    · refine List.forall_mem_cons.mpr ⟨?_, h.inv.announced.controls_eq⟩
      exact .inl ⟨a, h.inv.announced.acking_received a (List.mem_of_getElem? hi), rfl⟩
    · exact fun hge => List.mem_cons_of_mem _ (h.inv.announced.fin hge)
    · intro b hb hpos
      rcases h.inv.announced.taken b hb hpos with hc | hc
      · rcases List.mem_cons.mp ((cons_eraseIdx_perm hi).mem_iff.mpr hc) with rfl | hc
        · exact .inr List.mem_cons_self
        · exact .inl hc
      · exact .inr (List.mem_cons_of_mem _ hc)
    · exact fun b hb => h.inv.announced.acking_received b (List.mem_of_mem_eraseIdx hb)
  have hvalid := (Endpoint.honest (e := { e.submitControl kAckKey (toDecimal a) with
    acking := e.acking.eraseIdx i }) h.inv.outgoing.keys_ne hannounced h.receivedIds_le h.msgs_le
    f.sender.length_lt).sent_valid
  refine ⟨⟨?_, hannounced, ?_, { h.inv.sendThread with }⟩, h.peer, h.fits, h.peer_fits⟩
  · refine (h.inv.outgoing.submitControls [(kAckKey, toDecimal a)]
      ((kAckKey, toDecimal a) :: e.controls) (fun t => ?_) hvalid).congr
      rfl rfl rfl rfl rfl
    rw [List.mem_cons, List.mem_singleton]
  · exact .of_running (Endpoint.main_eq_running hphase) hflags.1 hflags.2

/-- **The user calls `WaitLinkTaskFinish`.** -/
theorem finish (h : Linked e f) (hmain : e.main = .running) (hacking : e.acking = []) :
    Linked { e with main := .stop } f := by
  exact h.move (by rw [hmain]; decide) hacking

theorem of_notifyQueue {pc pc' : SendThreadPc} (h : pc.notifyQueue = pc') (hne : pc' ≠ .popWoken) :
    pc = pc' ∧ pc' ≠ .popWait := by
  cases pc <;> simp_all [SendThreadPc.notifyQueue] <;> simp [← h]

/-- **The user sends a message.** -/
theorem send (h : Linked e f) (hmain : e.main = .running) {m : Msg}
    (hkey : m.key ∉ e.sender.msgs.map Msg.key) (hlen : e.sender.msgs.length + 2 < 2 ^ 64)
    (htest : m.key ≠ e.sender.testKey) (hlt : e.sender.msgs.length < e.config.maxMsgs) :
    Linked (e.send m hkey hlen) f := by
  have hphase : e.main.phase = 0 := by rw [hmain]; rfl
  have hflags := h.inv.mainThread.flags (by omega)
  obtain ⟨houtgoing, hannounced⟩ := h.inv.outgoing.send h.inv.announced (by omega)
    h.receivedIds_le h.msgs_le f.sender.length_lt hkey hlen htest hlt
  have hlength : (e.send m hkey hlen).sender.msgs.length = e.sender.msgs.length + 1 := by
    have hmsgs : (e.send m hkey hlen).sender.msgs = e.sender.msgs ++ [m] := rfl
    rw [hmsgs, List.length_append, List.length_singleton]
  refine ⟨⟨houtgoing, hannounced, .of_running hmain hflags.1 hflags.2, ?_⟩, h.peer, h.fits,
    h.peer_fits⟩
  constructor
  · rintro (hpc | hpc)
    · exact h.inv.sendThread.drained (.inl (of_notifyQueue hpc (by simp)).1)
    · exact h.inv.sendThread.drained (.inr (of_notifyQueue hpc (by simp)).1)
  · -- the thread does not return before it is stopped
    intro hpc
    have hstopped := h.inv.sendThread.drained (.inr (of_notifyQueue hpc (by simp)).1)
    rw [hflags.1] at hstopped
    contradiction
  · exact fun hpc => absurd rfl (of_notifyQueue hpc (by simp)).2
  · intro q b hpc
    obtain ⟨hle, hqueue⟩ := h.inv.sendThread.throttle q b (of_notifyQueue hpc (by simp)).1
    refine ⟨by omega, fun x hx => ?_⟩
    rcases List.mem_append.mp hx with hx | hx
    · exact hqueue x hx
    · rw [List.mem_singleton.mp hx, Sender.seqId, if_neg (by rw [h.inv.outgoing.seqIds]; decide)]
      exact Nat.lt_succ_of_le hle
  · exact fun q hpc => h.inv.sendThread.asleep q (of_notifyQueue hpc (by simp)).1

/-! ### The thread of the user -/

/-- **The last message is submitted.** -/
theorem fin (h : Linked e f) (hmain : e.main = .fin) :
    Linked { e.submitControl kFinKey (toDecimal e.sender.msgs.length) with main := .waitFin false }
      f := by
  have hphase : e.main.phase = 2 := by rw [hmain]; rfl
  have hannounced : Endpoint.Announced
      { e.submitControl kFinKey (toDecimal e.sender.msgs.length) with main := .waitFin false } := by
    refine ⟨?_, ?_, ?_, h.inv.announced.acking_received⟩
    · refine List.forall_mem_cons.mpr ⟨.inr ⟨le_rfl, rfl⟩, fun t ht => .inl ?_⟩
      refine (h.inv.announced.controls_eq t ht).resolve_right fun hc => ?_
      omega
    · exact fun _ => List.mem_cons_self
    · exact fun a ha hpos =>
        (h.inv.announced.taken a ha hpos).imp_right fun hc => List.mem_cons_of_mem _ hc
  have hvalid := (Endpoint.honest (e :=
    { e.submitControl kFinKey (toDecimal e.sender.msgs.length) with main := .waitFin false })
    h.inv.outgoing.keys_ne hannounced h.receivedIds_le h.msgs_le f.sender.length_lt).sent_valid
  refine ⟨⟨?_, hannounced, ?_, { h.inv.sendThread with }⟩, h.peer, h.fits, h.peer_fits⟩
  · refine (h.inv.outgoing.submitControls [(kFinKey, toDecimal e.sender.msgs.length)]
      ((kFinKey, toDecimal e.sender.msgs.length) :: e.controls) (fun t => ?_)
      hvalid).congr rfl rfl rfl rfl rfl
    rw [List.mem_cons, List.mem_singleton]
  · have hflags := h.inv.mainThread.flags (by omega)
    have hmove : Endpoint.MainThread { e with main := .waitFin false } := by
      refine h.inv.mainThread.move ?_ ?_ ?_ id nofun
      · rw [hphase]
        decide
      · rw [hflags.1]
        decide
      · rw [hflags.2]
        decide
    exact { hmove with waitSend := nofun }

/-- **`send_thread_stopped_` is set.** -/
theorem stopSend (h : Linked e f) (hmain : e.main = .stopSend) :
    Linked { e with sendThreadStopped := true, main := .emptyNotify } f := by
  have hphase : e.main.phase = 5 := by rw [hmain]; rfl
  have hge : 3 ≤ MainPc.emptyNotify.phase := by decide
  refine ⟨⟨h.inv.outgoing.congr rfl rfl rfl rfl rfl, ⟨?_, ?_, h.inv.announced.taken,
    h.inv.announced.acking_received⟩, ?_, { h.inv.sendThread with drained := fun _ => rfl }⟩,
    h.peer, h.fits, h.peer_fits⟩
  · exact fun t ht => (h.inv.announced.controls_eq t ht).imp_right fun hc => ⟨hge, hc.2⟩
  · exact fun _ => h.inv.announced.fin (by omega)
  · refine h.inv.mainThread.move (by rw [hphase]; decide) (by decide) ?_ id trivial
    have hqueue := h.inv.mainThread.queueStopped
    rw [hphase] at hqueue
    exact hqueue.trans (by decide)

/-- **`EmptyNotify`.** -/
theorem emptyNotify (h : Linked e f) (hmain : e.main = .emptyNotify) :
    Linked { e.notifyQueue with queueStopped := true, main := .join } f := by
  have hphase : e.main.phase = 6 := by rw [hmain]; rfl
  have hge : 3 ≤ MainPc.join.phase := by decide
  have hstopped := h.inv.mainThread.stopped.mpr (by omega)
  refine ⟨⟨h.inv.outgoing.congr rfl rfl rfl rfl rfl, ⟨?_, ?_, h.inv.announced.taken,
    h.inv.announced.acking_received⟩, ?_, ⟨fun _ => hstopped, ?_, ?_, ?_, ?_⟩⟩, h.peer, h.fits,
    h.peer_fits⟩
  · exact fun t ht => (h.inv.announced.controls_eq t ht).imp_right fun hc => ⟨hge, hc.2⟩
  · exact fun _ => h.inv.announced.fin (by omega)
  · refine h.inv.mainThread.move (by rw [hphase]; decide) ?_ (by decide) (fun hpc => ?_) trivial
    · exact iff_of_true hstopped (by decide)
    · exact congrArg SendThreadPc.notifyQueue hpc
  · exact fun hpc => h.inv.sendThread.exited (of_notifyQueue hpc nofun).1
  · exact fun hpc => absurd rfl (of_notifyQueue hpc nofun).2
  · exact fun q b hpc => h.inv.sendThread.throttle q b (of_notifyQueue hpc nofun).1
  · exact fun q hpc => h.inv.sendThread.asleep q (of_notifyQueue hpc nofun).1

theorem received_iff (h : Linked e f) (hfin : e.receiver.channel.receivedFin) :
    e.receiver.channel.peerSentMsgCount = 0 ∨
        Endpoint.covered e.receiver.channel.receivedMsgIds e.receiver.channel.peerSentMsgCount ↔
      Finset.Icc 1 e.receiver.channel.peerSentMsgCount ⊆
        receivedIds e.receiver.history.passed := by
  refine Endpoint.covered_iff h.peer.outgoing.inv.ledger.store.ids ?_
  rw [h.peer.outgoing.controls.count hfin]
  exact h.receivedIds_subset

theorem acked_iff (h : Linked e f) :
    e.sender.msgs.length = 0 ∨
        Endpoint.covered e.receiver.channel.receivedAckIds e.sender.msgs.length ↔
      Finset.Icc 1 e.sender.msgs.length ⊆ ackedIds e.receiver.history.passed :=
  Endpoint.covered_iff h.peer.outgoing.controls.acks h.ackedIds_subset_Icc

/-- **`WaitLinkTaskFinish` goes on.** -/
theorem mainStep (h : Linked e f) (hstep : e.mainStep = some e') : Linked e' f := by
  have hmove : ∀ pc : MainPc, e.main.Follows pc → e.Enter pc →
      some { e with main := pc } = some e' → Linked e' f := by
    intro pc hfollows henter heq
    obtain rfl := Option.some_inj.mp heq
    exact h.move hfollows henter
  rw [Endpoint.mainStep] at hstep
  split at hstep
  · nomatch hstep
  · next hmain =>
    obtain rfl := Option.some_inj.mp hstep
    have hstop := h.event .stop trivial
    have hmain' : (e.apply (e.receiver.step .stop)).main = .stop := by
      rw [Endpoint.apply_eq]
      exact hmain
    refine hstop.move (by rw [hmain']; decide) ?_
    rw [Endpoint.apply_eq]
    rfl
  · next hmain =>
    obtain rfl := Option.some_inj.mp hstep
    exact h.fin hmain
  · nomatch hstep
  · next hmain =>
    rw [hmain] at hmove
    split at hstep
    · next hfin => exact hmove (.waitMsgs false) (by decide) ⟨hfin, nofun⟩ hstep
    · next hfin =>
      exact hmove (.waitFin true) (by decide) (fun _ => Bool.eq_false_iff.mpr hfin) hstep
  · nomatch hstep
  · next hmain =>
    have hfin := h.inv.mainThread.receivedFin (by rw [hmain]; decide)
    rw [hmain] at hmove
    split at hstep
    · next hall =>
      exact hmove .stopSend (by decide) ((h.received_iff hfin).mp hall) hstep
    · next hall =>
      exact hmove (.waitMsgs true) (by decide)
        ⟨hfin, fun _ => mt (h.received_iff hfin).mpr hall⟩ hstep
  · next hmain =>
    obtain rfl := Option.some_inj.mp hstep
    exact h.stopSend hmain
  · next hmain =>
    obtain rfl := Option.some_inj.mp hstep
    exact h.emptyNotify hmain
  · next hmain =>
    rw [hmain] at hmove
    split at hstep
    · next hexited =>
      exact hmove (.waitSend false) (by decide) ⟨hexited, nofun⟩ hstep
    · nomatch hstep
  · nomatch hstep
  · next hmain =>
    have hexited := h.inv.mainThread.joined (by rw [hmain]; decide)
    rw [hmain] at hmove
    split at hstep
    · next htasks =>
      exact hmove (.waitSend true) (by decide) ⟨hexited, fun _ => htasks⟩ hstep
    · exact hmove (.waitAck false) (by decide) nofun hstep
  · nomatch hstep
  · next hmain =>
    rw [hmain] at hmove
    split at hstep
    · next hall =>
      exact hmove .done (by decide) (h.acked_iff.mp hall) hstep
    · next hall =>
      exact hmove (.waitAck true) (by decide) (fun _ => mt h.acked_iff.mpr hall) hstep
  · nomatch hstep

/-! ### The thread of `SendThread` -/

theorem sendThread_to (h : Linked e f) {pc : SendThreadPc} (hne : e.sendThread ≠ .exited)
    (hsend : Endpoint.SendThread { e with sendThread := pc }) :
    Linked { e with sendThread := pc } f :=
  h.sendMove hne (h.inv.outgoing.congr rfl rfl rfl rfl rfl) hsend

/-- **`Pop` returns**, and its message is submitted. -/
theorem takeMsg (h : Linked e f) (hne : e.sendThread ≠ .exited) : Linked e.takeMsg f := by
  rw [Endpoint.takeMsg]
  split
  · exact h.sendThread_to hne ⟨nofun, nofun, nofun, nofun, nofun⟩
  · next key value q queue hqueue =>
    obtain ⟨houtgoing, hle, hlt⟩ := h.inv.outgoing.take hqueue
    refine h.sendMove hne houtgoing ⟨nofun, nofun, nofun, ?_, nofun⟩
    intro q' b hpc
    obtain ⟨rfl, -⟩ := SendThreadPc.throttle.inj hpc
    exact ⟨hle, hlt⟩

/-- The loop of `ThrottleWindowWait` waits only if an acknowledgement is missing. -/
theorem of_throttled (h : Linked e f) {q : ℕ} (hthrottled : e.throttled q) :
    ¬Finset.Icc 1 q ⊆ ackedIds e.receiver.history.passed := by
  intro hall
  rw [Endpoint.throttled, Bool.and_eq_true, decide_eq_true_iff, decide_eq_true_iff,
    h.peer.outgoing.controls.acks.count_eq] at hthrottled
  obtain ⟨hwindow, hle⟩ := hthrottled
  have hmsgs := h.inv.outgoing.msgs_le
  have hcard := Finset.card_le_card h.ackedIds_subset_Icc
  have hq := Finset.card_le_card hall
  rw [Nat.card_Icc] at hcard hq
  -- the sum does not wrap around
  have hlt := h.fits.2.resolve_left hwindow
  omega

/-- **`SendThread` goes on.** -/
theorem sendThreadStep (h : Linked e f) (hstep : e.sendThreadStep = some e') : Linked e' f := by
  have hsend := h.inv.sendThread
  rw [Endpoint.sendThreadStep] at hstep
  split at hstep
  · next hpc =>
    obtain rfl := Option.some_inj.mp hstep
    refine h.sendThread_to (by rw [hpc]; nofun) ?_
    cases hstopped : e.sendThreadStopped with
    | true => exact ⟨fun _ => rfl, nofun, nofun, nofun, nofun⟩
    | false => exact ⟨nofun, nofun, nofun, nofun, nofun⟩
  · next hpc =>
    split at hstep
    · next hempty =>
      obtain rfl := Option.some_inj.mp hstep
      refine h.sendThread_to (by rw [hpc]; nofun) ⟨nofun, nofun, fun _ => ?_, nofun, nofun⟩
      exact ⟨hempty.1, Bool.eq_false_iff.mpr hempty.2⟩
    · obtain rfl := Option.some_inj.mp hstep
      exact h.takeMsg (by rw [hpc]; nofun)
  · nomatch hstep
  · next hpc =>
    obtain rfl := Option.some_inj.mp hstep
    exact h.takeMsg (by rw [hpc]; nofun)
  · nomatch hstep
  · next q hpc =>
    split at hstep
    · next hthrottled =>
      obtain rfl := Option.some_inj.mp hstep
      refine h.sendThread_to (by rw [hpc]; nofun) ⟨nofun, nofun, nofun, ?_, ?_⟩
      · intro q' b hpc'
        obtain ⟨rfl, -⟩ := SendThreadPc.throttle.inj hpc'
        exact hsend.throttle q false hpc
      · intro q' hpc'
        obtain ⟨rfl, -⟩ := SendThreadPc.throttle.inj hpc'
        exact h.of_throttled hthrottled
    · obtain rfl := Option.some_inj.mp hstep
      exact h.sendThread_to (by rw [hpc]; nofun) ⟨nofun, nofun, nofun, nofun, nofun⟩
  · next hpc =>
    have hstopped := hsend.drained (.inl hpc)
    split at hstep
    · next hqueue =>
      obtain rfl := Option.some_inj.mp hstep
      exact h.sendThread_to (by rw [hpc]; nofun)
        ⟨fun _ => hstopped, fun _ => hqueue, nofun, nofun, nofun⟩
    · next key value q queue hqueue =>
      obtain rfl := Option.some_inj.mp hstep
      obtain ⟨houtgoing, -⟩ := h.inv.outgoing.take hqueue
      refine h.sendMove (by rw [hpc]; nofun) houtgoing
        ⟨fun _ => hstopped, ?_, ?_, ?_, ?_⟩ <;> dsimp only [Endpoint.submit] <;> rw [hpc] <;> nofun
  · nomatch hstep

/-! ### The network -/

theorem receive (h : Linked e f) {r : Request}
    (hr : ∃ t ∈ e.sent, r ∈ sendImpl e.sender.bytesPerChunk t.1 t.2) : Linked e (f.receive r) :=
  (h.symm.event (.request r) hr).symm

theorem delivered_receive (f : Endpoint) (r : Request) :
    (f.receive r).receiver.history.delivered = r :: f.receiver.history.delivered := by
  rw [Endpoint.receive, Endpoint.apply_eq]
  exact f.receiver.request_delivered r

/-- **A request is delivered.** -/
theorem deliver (h : Linked e f) {i j : ℕ} {requests : List Request} {r : Request}
    (hi : e.tasks[i]? = some requests) (hj : requests[j]? = some r) :
    Linked { e with tasks := e.tasks.set i (requests.eraseIdx j) } (f.receive r) := by
  have hreceive := h.receive (h.inv.outgoing.tasks_sent requests (List.mem_of_getElem? hi) r
    (List.mem_of_getElem? hj))
  refine hreceive.withTasks (hreceive.inv.outgoing.deliver hi hj ?_) fun hmain hnil => ?_
  · rw [delivered_receive]
    exact List.mem_cons_self
  · refine h.inv.mainThread.waitSend hmain (List.length_eq_zero_iff.mp ?_)
    rw [← List.length_set, hnil, List.length_nil]

/-! ### Wake-ups -/

theorem of_notifyFinished {pc pc' : MainPc} (h : pc.notifyFinished = pc')
    (hne : ∀ b, pc' ≠ .waitSend b) : pc = pc' := by
  cases pc <;> simp_all [MainPc.notifyFinished]

theorem phase_notifyFinished (pc : MainPc) : pc.notifyFinished.phase = pc.phase := by
  cases pc <;> rfl

theorem notify (h : Linked e f) (cond : Option Cond) : Linked (e.notify cond) f where
  inv :=
    { outgoing := h.inv.outgoing.congr rfl rfl rfl rfl rfl
      announced := h.inv.announced.apply (o := ⟨e.receiver, [], cond, none⟩)
        (Receiver.effect_self _ _ _) fun _ ha => absurd ha List.not_mem_nil
      mainThread := h.inv.mainThread.apply (o := ⟨e.receiver, [], cond, none⟩)
        (Receiver.effect_self _ _ _) fun _ => rfl
      sendThread := h.inv.sendThread.apply (o := ⟨e.receiver, [], cond, none⟩)
        (Receiver.effect_self _ _ _) }
  peer := h.peer
  fits := h.fits
  peer_fits := h.peer_fits

theorem notifyQueue (h : Linked e f) : Linked e.notifyQueue f where
  inv :=
    { outgoing := h.inv.outgoing.congr rfl rfl rfl rfl rfl
      announced := { h.inv.announced with }
      mainThread :=
        { h.inv.mainThread with
          joined := fun hge => congrArg SendThreadPc.notifyQueue (h.inv.mainThread.joined hge) }
      sendThread :=
        { drained := by
            rintro (hpc | hpc)
            · exact h.inv.sendThread.drained (.inl (of_notifyQueue hpc nofun).1)
            · exact h.inv.sendThread.drained (.inr (of_notifyQueue hpc nofun).1)
          exited := fun hpc => h.inv.sendThread.exited (of_notifyQueue hpc nofun).1
          popWait := fun hpc => absurd rfl (of_notifyQueue hpc nofun).2
          throttle := fun q b hpc => h.inv.sendThread.throttle q b (of_notifyQueue hpc nofun).1
          asleep := fun q hpc => h.inv.sendThread.asleep q (of_notifyQueue hpc nofun).1 } }
  peer := h.peer
  fits := h.fits
  peer_fits := h.peer_fits

theorem notifyFinished (h : Linked e f) {tasks : List (List Request)}
    (houtgoing : Endpoint.Outgoing { e with tasks := tasks } f.receiver) :
    Linked { e with tasks := tasks }.notifyFinished f := by
  have hphase := phase_notifyFinished e.main
  refine ⟨⟨houtgoing.congr rfl rfl rfl rfl rfl, ?_, ?_, { h.inv.sendThread with }⟩, h.peer, h.fits,
    h.peer_fits⟩
  · refine ⟨fun t ht => ?_, ?_, h.inv.announced.taken, h.inv.announced.acking_received⟩ <;>
      dsimp only [Endpoint.notifyFinished] <;> rw [hphase]
    · exact h.inv.announced.controls_eq t ht
    · exact h.inv.announced.fin
  · have ht := h.inv.mainThread
    constructor <;> dsimp only [Endpoint.notifyFinished]
    · rw [hphase]
      exact ht.acking
    · rw [hphase]
      exact ht.waitingFinish
    · rw [hphase]
      exact ht.receivedFin
    · rw [hphase]
      exact ht.received
    · rw [hphase]
      exact ht.stopped
    · rw [hphase]
      exact ht.queueStopped
    · rw [hphase]
      exact ht.joined
    · rw [hphase]
      exact ht.acked
    · exact fun hpc => ht.waitFin (of_notifyFinished hpc nofun)
    · exact fun hpc => ht.waitMsgs (of_notifyFinished hpc nofun)
    · intro hpc
      cases hmain : e.main <;> rw [hmain] at hpc <;> nomatch hpc
    · exact fun hpc => ht.waitAck (of_notifyFinished hpc nofun)

/-! ### All actions -/

/-- **Every action keeps the invariant.** -/
theorem act (h : Linked e f) {a : Action} (hact : act e f a = some (e', f')) :
    Linked e' f' := by
  cases a with
  | send m =>
    rw [Shutdown.act] at hact
    split at hact
    · next hcond =>
      obtain ⟨rfl, rfl⟩ := Prod.mk.inj (Option.some_inj.mp hact)
      exact h.send hcond.1 hcond.2.1 _ hcond.2.2.1 hcond.2.2.2
    · nomatch hact
  | recv key =>
    rw [Shutdown.act] at hact
    split at hact
    · next hmain =>
      obtain ⟨rfl, rfl⟩ := Prod.mk.inj (Option.some_inj.mp hact)
      exact h.recv hmain key
    · nomatch hact
  | ackRecv i =>
    rw [Shutdown.act] at hact
    split at hact
    · nomatch hact
    · next a hi =>
      obtain ⟨rfl, rfl⟩ := Prod.mk.inj (Option.some_inj.mp hact)
      exact h.ackRecv hi
  | finish =>
    rw [Shutdown.act] at hact
    split at hact
    · next hcond =>
      obtain ⟨rfl, rfl⟩ := Prod.mk.inj (Option.some_inj.mp hact)
      exact h.finish hcond.1 hcond.2
    · nomatch hact
  | main =>
    obtain ⟨e₁, he₁, heq⟩ := Option.map_eq_some_iff.mp hact
    obtain ⟨rfl, rfl⟩ := Prod.mk.inj heq
    exact h.mainStep he₁
  | sendThread =>
    obtain ⟨e₁, he₁, heq⟩ := Option.map_eq_some_iff.mp hact
    obtain ⟨rfl, rfl⟩ := Prod.mk.inj heq
    exact h.sendThreadStep he₁
  | deliver i j =>
    rw [Shutdown.act] at hact
    split at hact
    · nomatch hact
    next requests hi =>
    split at hact
    · nomatch hact
    next r hj =>
    obtain ⟨rfl, rfl⟩ := Prod.mk.inj (Option.some_inj.mp hact)
    exact h.deliver hi hj
  | redeliver r =>
    rw [Shutdown.act] at hact
    split at hact
    · next hr =>
      obtain ⟨rfl, rfl⟩ := Prod.mk.inj (Option.some_inj.mp hact)
      exact h.receive (h.inv.outgoing.inv.inbox.delivered_sent r hr)
    · nomatch hact
  | test =>
    obtain ⟨rfl, rfl⟩ := Prod.mk.inj (Option.some_inj.mp hact)
    refine h.receive ⟨_, Endpoint.mem_sent.mpr (.inr (.inl rfl)), ?_⟩
    exact (Inbox.Inv.mem_sendImpl_of_le (Nat.zero_le _)).mpr rfl
  | passOn i =>
    rw [Shutdown.act] at hact
    split at hact
    · obtain ⟨rfl, rfl⟩ := Prod.mk.inj (Option.some_inj.mp hact)
      exact h.event (.passOn i) trivial
    · nomatch hact
  | taskDone i =>
    rw [Shutdown.act] at hact
    split at hact
    · next hi =>
      obtain ⟨rfl, rfl⟩ := Prod.mk.inj (Option.some_inj.mp hact)
      exact h.notifyFinished (h.inv.outgoing.taskDone hi)
    · nomatch hact
  | wake =>
    obtain ⟨rfl, rfl⟩ := Prod.mk.inj (Option.some_inj.mp hact)
    have hwoken := ((h.notify (some .msgDb)).notify (some .ackFin)).notifyQueue
    exact hwoken.notifyFinished hwoken.inv.outgoing

/-- **Two new channels.** -/
theorem start {c d : ChannelConfig} (hc : c.Fits d) (hd : d.Fits c) :
    Linked (.start c) (.start d) := by
  have hinv : ∀ c : ChannelConfig, (Endpoint.start c).Inv Receiver.empty := by
    intro c
    have hnil : ∀ {i : ℕ} {m : Msg}, ¬(Endpoint.start c).sender.msgs[i]? = some m := nofun
    have hannounced : (Endpoint.start c).Announced := ⟨nofun, nofun, nofun, nofun⟩
    have hhonest := Endpoint.honest (e := .start c) nofun hannounced nofun
      (Nat.zero_le _) (by decide)
    refine ⟨?_, hannounced, .of_running rfl rfl rfl, ⟨nofun, nofun, nofun, nofun, nofun⟩⟩
    refine ⟨rfl, rfl, Nat.zero_le _, nofun, List.Pairwise.nil, nofun, nofun, ?_, nofun, ?_, ?_⟩
    · exact fun i m hm => absurd hm hnil
    · exact (Receiver.empty_inv _ _ _).mono le_rfl nofun hhonest.sent_valid fun _ _ _ h => h
    · exact ⟨SegmentTree.empty_represents, ⟨nofun, nofun⟩, nofun⟩
  exact ⟨hinv c, hinv d, hc, hd⟩

end Linked

/-- **The invariant holds in every state that can be reached.** -/
theorem Reachable.linked {c : Config} (hleft : c.left.Fits c.right) (hright : c.right.Fits c.left)
    {s : System} (h : Reachable c s) : Linked s.left s.right := by
  induction h with
  | start => exact .start hleft hright
  | @step s s' p a _ hs ih =>
    cases p with
    | left =>
      obtain ⟨⟨l, r⟩, hact, rfl⟩ := Option.map_eq_some_iff.mp hs
      exact ih.act hact
    | right =>
      obtain ⟨⟨r, l⟩, hact, rfl⟩ := Option.map_eq_some_iff.mp hs
      exact (ih.symm.act hact).symm

end Yacl.Link.Shutdown
