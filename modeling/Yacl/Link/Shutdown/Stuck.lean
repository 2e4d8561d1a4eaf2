import Yacl.Link.Shutdown.Accounts

/-!
# Shutdowns that never end

A side is lost if an acknowledgement that it waits for cannot come any more, or if its loop in
`ThrottleWindowWait` waits though all acknowledgements came (`Endpoint.Lost`). If moreover nothing
but last messages is on the way (`Endpoint.Quiet`), then it stays lost, and its
`WaitLinkTaskFinish` never returns (`not_graceful_of_lost`).
-/

open Bytes
open Yacl.Utils (SegmentTree)

namespace Yacl.Link.Shutdown

namespace Endpoint

/-- The user of this side has called `WaitLinkTaskFinish`, and nothing but last messages is on the
way from it or inside of it. -/
structure Quiet (e : Endpoint) : Prop where
  finishing : 1 ≤ e.main.phase
  queue : e.queue = []
  tasks : ∀ task ∈ e.tasks, ∀ r ∈ task, r.key = kFinKey
  handlers : ∀ c ∈ e.receiver.inbox.handlers, c.1 = kFinKey
  stored : e.receiver.channel.recvMsgs = []

/-- The condition to leave the loop of `WaitForFlyingAck`. -/
def AllAcked (e : Endpoint) : Prop :=
  e.sender.msgs.length = 0 ∨ covered e.receiver.channel.receivedAckIds e.sender.msgs.length

/-- **This side never finishes** unless acknowledgements come. -/
def Lost (e : Endpoint) : Prop :=
  e.main.phase < 10 ∧ ¬e.AllAcked ∨
    e.main.phase ≤ 7 ∧ ∃ q b, e.sendThread = .throttle q b ∧ e.throttled q

variable {e e' f : Endpoint} {o : Outcome Receiver}

theorem Lost.main_ne_done (h : e.Lost) : e.main ≠ .done := by
  intro hmain
  rw [Lost, hmain] at h
  rcases h with ⟨hlt, -⟩ | ⟨hle, -⟩
  · exact absurd hlt (by decide)
  · exact absurd hle (by decide)

/-! ### Events -/

theorem call_fin (s : Receiver) (w : Memory) :
    (s.call kFinKey w).acks = [] ∧ (s.call kFinKey w).state.inbox = s.inbox ∧
      (s.call kFinKey w).state.channel.recvMsgs = s.channel.recvMsgs ∧
      (s.call kFinKey w).state.channel.receivedAckIds = s.channel.receivedAckIds := by
  obtain ⟨hmsgs, -, -, hacks⟩ := s.channel.onMessage_control (.inr rfl) w
  refine ⟨hacks, rfl, hmsgs, ?_⟩
  dsimp only [Receiver.call]
  rw [Channel.onMessage, if_neg (by decide), if_pos rfl, Channel.onFin]
  split
  · rfl
  · split <;> rfl

theorem Quiet.apply (h : e.Quiet) (hacks : o.acks = [])
    (hhandlers : ∀ c ∈ o.state.inbox.handlers, c.1 = kFinKey)
    (hstored : o.state.channel.recvMsgs = []) : (e.apply o).Quiet := by
  rw [apply_eq, hacks]
  refine ⟨?_, h.queue, fun task htask => ?_, hhandlers, hstored⟩
  · rw [MainPc.phase_notify]
    exact h.finishing
  · rw [List.map_nil, List.append_nil] at htask
    exact h.tasks task htask

theorem Lost.apply (h : e.Lost)
    (hids : o.state.channel.receivedAckIds = e.receiver.channel.receivedAckIds) :
    (e.apply o).Lost := by
  rw [apply_eq]
  rcases h with ⟨hlt, hacked⟩ | ⟨hle, q, b, hpc, hthrottled⟩
  · refine .inl ⟨?_, ?_⟩
    · rw [MainPc.phase_notify]
      exact hlt
    · rw [AllAcked, hids]
      exact hacked
  · refine .inr ⟨?_, q, ?_⟩
    · rw [MainPc.phase_notify]
      exact hle
    · rw [hpc, throttled, hids]
      rcases o.notified with - | - | -
      · exact ⟨b, rfl, hthrottled⟩
      · exact ⟨b, rfl, hthrottled⟩
      · exact ⟨false, rfl, hthrottled⟩

theorem step_fin {s : Receiver} {ev : Event}
    (hev : (∃ r : Request, ev = .request r ∧ r.key = kFinKey) ∨ (∃ i, ev = .passOn i))
    (hhandlers : ∀ c ∈ s.inbox.handlers, c.1 = kFinKey) (hstored : s.channel.recvMsgs = []) :
    (s.step ev).acks = [] ∧ (∀ c ∈ (s.step ev).state.inbox.handlers, c.1 = kFinKey) ∧
      (s.step ev).state.channel.recvMsgs = [] ∧
      (s.step ev).state.channel.receivedAckIds = s.channel.receivedAckIds := by
  rcases hev with ⟨r, rfl, hr⟩ | ⟨i, rfl⟩
  · cases r with
    | mono key value =>
      obtain rfl : key = kFinKey := hr
      obtain ⟨hacks, hinbox, hmsgs, hids⟩ := call_fin
        { s with
          history := { s.history with delivered := .mono kFinKey value :: s.history.delivered } }
        (value.map some)
      refine ⟨hacks, ?_, hmsgs.trans hstored, hids⟩
      rw [Receiver.step]
      dsimp only [Inbox.onRequest, pure, Except.pure]
      exact hhandlers
    | chunked c =>
      have hkey : c.key = kFinKey := hr
      rw [Receiver.step]
      dsimp only [Inbox.onRequest]
      cases onChunkedMessage true s.inbox.chunkedValues c with
      | error err => exact ⟨rfl, hhandlers, hstored, rfl⟩
      | ok out =>
        refine ⟨rfl, fun call hcall => ?_, hstored, rfl⟩
        rcases List.mem_append.mp hcall with hcall | hcall
        · exact hhandlers call hcall
        · obtain ⟨m, -, rfl⟩ := List.mem_map.mp hcall
          exact hkey
  · rw [Receiver.step]
    cases hi : s.inbox.handlers[i]? with
    | none => exact ⟨rfl, hhandlers, hstored, rfl⟩
    | some call =>
      obtain ⟨key, w⟩ := call
      obtain rfl : key = kFinKey := hhandlers _ (List.mem_of_getElem? hi)
      obtain ⟨hacks, hinbox, hmsgs, hids⟩ := call_fin
        { s with inbox := { s.inbox with handlers := s.inbox.handlers.eraseIdx i } } w
      refine ⟨hacks, fun call hcall => ?_, hmsgs.trans hstored, hids⟩
      exact hhandlers call (List.mem_of_mem_eraseIdx hcall)

/-! ### The threads -/

theorem Lost.main (h : e.Lost) {pc : MainPc} {stopped queueStopped : Bool}
    {sendThread : SendThreadPc} (hdone : 10 ≤ pc.phase → e.AllAcked)
    (hphase : 7 < pc.phase → e.sendThread = .exited ∨ 7 < e.main.phase)
    (hsend : ∀ q b, e.sendThread = .throttle q b → sendThread = .throttle q b) :
    Lost { e with
      main := pc
      sendThreadStopped := stopped
      queueStopped := queueStopped
      sendThread := sendThread } := by
  rcases h with ⟨-, hacked⟩ | ⟨hle, q, b, hpc, hthrottled⟩
  · exact .inl ⟨Nat.lt_of_not_le fun hge => hacked (hdone hge), hacked⟩
  · refine .inr ⟨?_, q, b, hsend q b hpc, hthrottled⟩
    by_contra hgt
    rcases hphase (Nat.lt_of_not_le hgt) with hexited | hgt'
    · nomatch hpc.symm.trans hexited
    · omega

theorem Quiet.mainStep (h : e.Quiet) (hstep : e.mainStep = some e') :
    e'.Quiet ∧ (e.Lost → e'.Lost) := by
  have hmain : ∀ pc : MainPc, 1 ≤ pc.phase → (10 ≤ pc.phase → e.AllAcked) →
      (7 < pc.phase → e.sendThread = .exited ∨ 7 < e.main.phase) →
      some { e with main := pc } = some e' → e'.Quiet ∧ (e.Lost → e'.Lost) := by
    intro pc hpos hdone hphase heq
    obtain rfl := Option.some_inj.mp heq
    exact ⟨{ h with finishing := hpos }, fun hlost => hlost.main hdone hphase fun _ _ hpc => hpc⟩
  have hearly : ∀ pc : MainPc, 1 ≤ pc.phase → pc.phase ≤ 7 →
      some { e with main := pc } = some e' → e'.Quiet ∧ (e.Lost → e'.Lost) :=
    fun pc hpos hle =>
      hmain pc hpos (fun hge => absurd hle (by omega)) fun hlt => absurd hle (by omega)
  rw [Endpoint.mainStep] at hstep
  split at hstep
  · nomatch hstep
  · obtain rfl := Option.some_inj.mp hstep
    have hacks : (e.receiver.step .stop).acks = [] := by
      rw [Receiver.step]
      dsimp only [Channel.stopReceivingAndAckUnreadMsgs]
      rw [h.stored]
      rfl
    have hquiet := h.apply hacks h.handlers rfl
    refine ⟨{ hquiet with finishing := (by decide : 1 ≤ MainPc.fin.phase) }, fun hlost => ?_⟩
    exact (hlost.apply rfl).main (fun hge => absurd hge (by decide))
      (fun hlt => absurd hlt (by decide)) fun _ _ hpc => hpc
  · -- the last message is submitted
    obtain rfl := Option.some_inj.mp hstep
    refine ⟨⟨(by decide : 1 ≤ (MainPc.waitFin false).phase), h.queue, fun task htask r hr => ?_,
      h.handlers, h.stored⟩, fun hlost => ?_⟩
    · rcases List.mem_append.mp htask with htask | htask
      · exact h.tasks task htask r hr
      · obtain rfl := List.mem_singleton.mp htask
        exact key_of_mem_sendImpl hr
    · have hlost' : Lost { e with main := .waitFin false } :=
        hlost.main (fun hge => absurd hge (by decide)) (fun hlt => absurd hlt (by decide))
          fun _ _ hpc => hpc
      exact hlost'
  · nomatch hstep
  · split at hstep
    · exact hearly (.waitMsgs false) (by decide) (by decide) hstep
    · exact hearly (.waitFin true) (by decide) (by decide) hstep
  · nomatch hstep
  · split at hstep
    · exact hearly .stopSend (by decide) (by decide) hstep
    · exact hearly (.waitMsgs true) (by decide) (by decide) hstep
  · obtain rfl := Option.some_inj.mp hstep
    refine ⟨{ h with finishing := (by decide : 1 ≤ MainPc.emptyNotify.phase) }, fun hlost =>
      hlost.main (fun hge => absurd hge (by decide)) (fun hlt => absurd hlt (by decide))
        fun _ _ hpc => hpc⟩
  · obtain rfl := Option.some_inj.mp hstep
    refine ⟨{ h with finishing := (by decide : 1 ≤ MainPc.join.phase) }, fun hlost =>
      hlost.main (fun hge => absurd hge (by decide)) (fun hlt => absurd hlt (by decide))
        fun q b hpc => ?_⟩
    exact congrArg SendThreadPc.notifyQueue hpc
  · split at hstep
    · next hexited =>
      exact hmain (.waitSend false) (by decide) (fun hge => absurd hge (by decide))
        (fun _ => .inl hexited) hstep
    · nomatch hstep
  · nomatch hstep
  · next hpc =>
    have hgt : 7 < e.main.phase := by rw [hpc]; decide
    split at hstep
    · exact hmain (.waitSend true) (by decide) (fun hge => absurd hge (by decide))
        (fun _ => .inr hgt) hstep
    · exact hmain (.waitAck false) (by decide) (fun hge => absurd hge (by decide))
        (fun _ => .inr hgt) hstep
  · nomatch hstep
  · next hpc =>
    have hgt : 7 < e.main.phase := by rw [hpc]; decide
    split at hstep
    · next hacked => exact hmain .done (by decide) (fun _ => hacked) (fun _ => .inr hgt) hstep
    · exact hmain (.waitAck true) (by decide) (fun hge => absurd hge (by decide))
        (fun _ => .inr hgt) hstep
  · nomatch hstep

theorem Quiet.takeMsg (h : e.Quiet) (hpc : ∀ q b, e.sendThread ≠ .throttle q b) :
    e.takeMsg.Quiet ∧ (e.Lost → e.takeMsg.Lost) := by
  rw [Endpoint.takeMsg]
  split
  · refine ⟨{ h with }, fun hlost => ?_⟩
    rcases hlost with hacked | ⟨-, q, b, hpc', -⟩
    · exact .inl hacked
    · exact absurd hpc' (hpc q b)
  · next hqueue => nomatch h.queue.symm.trans hqueue

theorem Quiet.sendThreadStep (h : e.Quiet) (hstep : e.sendThreadStep = some e') :
    e'.Quiet ∧ (e.Lost → e'.Lost) := by
  -- the thread is not in the loop of `ThrottleWindowWait`
  have hother : ∀ pc : SendThreadPc, (∀ q b, e.sendThread ≠ .throttle q b) →
      some { e with sendThread := pc } = some e' → e'.Quiet ∧ (e.Lost → e'.Lost) := by
    intro pc hpc heq
    obtain rfl := Option.some_inj.mp heq
    refine ⟨{ h with }, fun hlost => ?_⟩
    rcases hlost with hacked | ⟨-, q, b, hpc', -⟩
    · exact .inl hacked
    · exact absurd hpc' (hpc q b)
  rw [Endpoint.sendThreadStep] at hstep
  split at hstep
  · next hpc => exact hother _ (by rw [hpc]; nofun) hstep
  · next hpc =>
    split at hstep
    · exact hother _ (by rw [hpc]; nofun) hstep
    · obtain rfl := Option.some_inj.mp hstep
      exact h.takeMsg (by rw [hpc]; nofun)
  · nomatch hstep
  · next hpc =>
    obtain rfl := Option.some_inj.mp hstep
    exact h.takeMsg (by rw [hpc]; nofun)
  · nomatch hstep
  · next q hpc =>
    split at hstep
    · obtain rfl := Option.some_inj.mp hstep
      refine ⟨{ h with }, fun hlost => ?_⟩
      rcases hlost with hacked | ⟨hle, q', b, hpc', hthrottled⟩
      · exact .inl hacked
      · obtain ⟨rfl, -⟩ := SendThreadPc.throttle.inj (hpc.symm.trans hpc')
        exact .inr ⟨hle, q, true, rfl, hthrottled⟩
    · next hnot =>
      obtain rfl := Option.some_inj.mp hstep
      refine ⟨{ h with }, fun hlost => ?_⟩
      rcases hlost with hacked | ⟨hle, q', b, hpc', hthrottled⟩
      · exact .inl hacked
      · obtain ⟨rfl, -⟩ := SendThreadPc.throttle.inj (hpc.symm.trans hpc')
        exact absurd hthrottled hnot
  · next hpc =>
    split at hstep
    · exact hother _ (by rw [hpc]; nofun) hstep
    · next hqueue => nomatch h.queue.symm.trans hqueue
  · nomatch hstep

/-! ### Progress -/

theorem Quiet.deliver (h : e.Quiet) {i j : ℕ} {requests : List Request}
    (hi : e.tasks[i]? = some requests) :
    Quiet { e with tasks := e.tasks.set i (requests.eraseIdx j) } := by
  refine { h with tasks := fun task htask r hr => ?_ }
  rcases List.mem_or_eq_of_mem_set htask with htask | rfl
  · exact h.tasks task htask r hr
  · exact h.tasks requests (List.mem_of_getElem? hi) r (List.mem_of_mem_eraseIdx hr)

/-- **Progress of a quiet system** leaves it quiet, and a lost side lost. -/
theorem Quiet.act {f' : Endpoint} (h : e.Quiet) (hf : f.Quiet) {a : Action} (ha : a.Required)
    (hact : Shutdown.act e f a = some (e', f')) :
    (e'.Quiet ∧ f'.Quiet) ∧ (e.Lost → e'.Lost) ∧ (f.Lost → f'.Lost) := by
  cases a with
  | main =>
    obtain ⟨e₁, he₁, heq⟩ := Option.map_eq_some_iff.mp hact
    obtain ⟨rfl, rfl⟩ := Prod.mk.inj heq
    obtain ⟨hquiet, hlost⟩ := h.mainStep he₁
    exact ⟨⟨hquiet, hf⟩, hlost, id⟩
  | sendThread =>
    obtain ⟨e₁, he₁, heq⟩ := Option.map_eq_some_iff.mp hact
    obtain ⟨rfl, rfl⟩ := Prod.mk.inj heq
    obtain ⟨hquiet, hlost⟩ := h.sendThreadStep he₁
    exact ⟨⟨hquiet, hf⟩, hlost, id⟩
  | deliver i j =>
    rw [Shutdown.act] at hact
    split at hact
    · nomatch hact
    next requests hi =>
    split at hact
    · nomatch hact
    next r hj =>
    obtain ⟨rfl, rfl⟩ := Prod.mk.inj (Option.some_inj.mp hact)
    have hr := h.tasks requests (List.mem_of_getElem? hi) r (List.mem_of_getElem? hj)
    obtain ⟨hacks, hhandlers, hstored, hids⟩ :=
      step_fin (.inl ⟨r, rfl, hr⟩) hf.handlers hf.stored
    exact ⟨⟨h.deliver hi, hf.apply hacks hhandlers hstored⟩, id, fun hlost => hlost.apply hids⟩
  | passOn i =>
    rw [Shutdown.act] at hact
    split at hact
    · obtain ⟨rfl, rfl⟩ := Prod.mk.inj (Option.some_inj.mp hact)
      obtain ⟨hacks, hhandlers, hstored, hids⟩ := step_fin (.inr ⟨i, rfl⟩) h.handlers h.stored
      exact ⟨⟨h.apply hacks hhandlers hstored, hf⟩, fun hlost => hlost.apply hids, id⟩
    · nomatch hact
  | taskDone i =>
    rw [Shutdown.act] at hact
    split at hact
    · obtain ⟨rfl, rfl⟩ := Prod.mk.inj (Option.some_inj.mp hact)
      have hphase : e.main.notifyFinished.phase = e.main.phase := by cases e.main <;> rfl
      refine ⟨⟨⟨?_, h.queue, fun task htask => h.tasks task (List.mem_of_mem_eraseIdx htask),
        h.handlers, h.stored⟩, hf⟩, fun hlost => ?_, id⟩
      · exact hphase ▸ h.finishing
      rw [Lost] at hlost ⊢
      dsimp only [notifyFinished]
      rw [hphase]
      exact hlost
    · nomatch hact
  | _ => exact ha.elim

end Endpoint

/-! ### Systems -/

/-- **A lost side never finishes.** -/
theorem not_graceful_of_lost {c : Config} {s : System} (hs : Reachable c s)
    (hleft : s.left.Quiet) (hright : s.right.Quiet) (hlost : s.left.Lost ∨ s.right.Lost) :
    ¬c.Graceful := by
  intro hgraceful
  have hclosing : ∀ {s : System}, s.left.Quiet → s.right.Quiet → s.Closing := by
    intro s hl hr
    have hrunning : ∀ {e : Endpoint}, e.Quiet → e.main ≠ .running := by
      intro e he hmain
      have hpos := he.finishing
      rw [hmain] at hpos
      exact absurd hpos (by decide)
    exact ⟨hrunning hl, hrunning hr⟩
  have hacc := hgraceful.terminates s hs (hclosing hleft hright)
  induction hacc with
  | intro s _ ih =>
    by_cases hterminal : s.Terminal
    · obtain ⟨hl, hr⟩ := hgraceful.finished s hs (hclosing hleft hright) hterminal
      rcases hlost with hlost | hlost
      · exact hlost.main_ne_done hl
      · exact hlost.main_ne_done hr
    · -- one more step
      rw [System.Terminal, not_forall] at hterminal
      obtain ⟨s', hs'⟩ := hterminal
      rw [not_not] at hs'
      have hprogress := hs'
      obtain ⟨p, a, ha, hstep⟩ := hs'
      cases p with
      | left =>
        obtain ⟨⟨l, r⟩, hact, rfl⟩ := Option.map_eq_some_iff.mp hstep
        obtain ⟨hquiet, hl, hr⟩ := hleft.act hright ha hact
        exact ih _ hprogress (hs.step hstep) hquiet.1 hquiet.2 (hlost.imp hl hr)
      | right =>
        obtain ⟨⟨r, l⟩, hact, rfl⟩ := Option.map_eq_some_iff.mp hstep
        obtain ⟨hquiet, hr, hl⟩ := hright.act hleft ha hact
        exact ih _ hprogress (hs.step hstep) hquiet.2 hquiet.1 (hlost.imp hl hr)

end Yacl.Link.Shutdown
