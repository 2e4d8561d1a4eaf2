import Yacl.Link.Shutdown.System

/-!
# The shutdown ends

A weight of the two sides that every step that is sure to come makes smaller, whatever the settings
are (`progress_weight_lt`). It counts the work that is left: a message in the queue becomes a task,
a task becomes requests, a request may become a call of `OnMessage` in a handler, a call may store
the message or acknowledge it, and an acknowledgement is a task again. Acknowledgements and last
messages are not acknowledged themselves, so the chain ends there. Every call may also wake two
threads, which then take one more step each.
-/

open Bytes

namespace Yacl.Link.Shutdown

/-! ### Weights -/

section Weights

variable (B : ℕ)

/-- The weight of an acknowledgement or a last message that is submitted: four for the task and
eight for each request. -/
def controlWeight (key : Str) (value : List Byte) : ℕ := 4 + 8 * (sendImpl B key value).length

/-- The weight of the acknowledgement of a number. -/
def ackWeight (a : ℕ) : ℕ := controlWeight B kAckKey (toDecimal a)

/-- The weight of the acknowledgement that a call of `OnMessage` may submit. -/
def callWeight (key : Str) : ℕ := ((callSeq key).map (ackWeight B)).getD 0

def requestWeight (r : Request) : ℕ := 8 + callWeight B r.key

def taskWeight (rs : List Request) : ℕ := 4 + (rs.map (requestWeight B)).sum

def handlerWeight (c : Str × Memory) : ℕ := 4 + callWeight B c.1

def storedWeight (l : List (Str × Memory × ℕ)) : ℕ := (l.map fun e => ackWeight B e.2.2).sum

/-- The weight of the receiving half of a channel. -/
def receiverWeight (s : Receiver) : ℕ :=
  (s.inbox.handlers.map (handlerWeight B)).sum + storedWeight B s.channel.recvMsgs

/-- The weight of acknowledgements. -/
def acksWeight (acks : List ℕ) : ℕ := (acks.map (ackWeight B)).sum

end Weights

/-- Where the thread of `SendThread` is, before and after it was stopped. -/
def sendThreadWeight : Bool → SendThreadPc → ℕ
  | false, .top => 6
  | false, .pop => 5
  | false, .popWait => 4
  | false, .popWoken => 7
  | false, .throttle _ asleep => if asleep then 7 else 8
  | true, .top => 2
  | true, .pop => 3
  | true, .popWait => 2
  | true, .popWoken => 3
  | true, .throttle _ asleep => if asleep then 3 else 4
  | _, .drain => 1
  | _, .exited => 0

/-- Where the thread of the user is; `fin` is the weight of the last message. -/
def mainWeight (fin : ℕ) : MainPc → ℕ
  | .running => 17 + fin
  | .stop => 16 + fin
  | .fin => 15 + fin
  | .waitFin asleep => if asleep then 13 else 14
  | .waitMsgs asleep => if asleep then 11 else 12
  | .stopSend => 10
  | .emptyNotify => 9
  | .join => 5
  | .waitSend asleep => if asleep then 3 else 4
  | .waitAck asleep => if asleep then 1 else 2
  | .done => 0

/-- The weight of one side; the chunks of the other side are of size `B`. -/
def Endpoint.weight (e : Endpoint) (B : ℕ) : ℕ :=
  (e.queue.map fun m => 8 + taskWeight B (sendImpl e.sender.bytesPerChunk m.1 m.2.1)).sum +
    (e.tasks.map (taskWeight B)).sum +
    receiverWeight e.sender.bytesPerChunk e.receiver +
    sendThreadWeight e.sendThreadStopped e.sendThread +
    mainWeight (controlWeight e.sender.bytesPerChunk kFinKey (toDecimal e.sender.msgs.length))
      e.main

/-- The weight of both sides. -/
def weight (e f : Endpoint) : ℕ :=
  e.weight f.sender.bytesPerChunk + f.weight e.sender.bytesPerChunk

/-! ### The receiving half -/

section Receiver

variable {B : ℕ}

theorem acksWeight_append (l l' : List ℕ) :
    acksWeight B (l ++ l') = acksWeight B l + acksWeight B l' := by
  rw [acksWeight, List.map_append, List.sum_append]
  rfl

theorem acksWeight_sendAck_le (a : ℕ) : acksWeight B (Channel.sendAck a) ≤ ackWeight B a := by
  rw [Channel.sendAck]
  split <;> simp [acksWeight]

/-- **A call of `OnMessage`** stores or acknowledges at most one message. -/
theorem onMessage_weight (c : Channel) (key : Str) (v : Memory) :
    storedWeight B (c.onMessage key v).state.recvMsgs + acksWeight B (c.onMessage key v).acks ≤
      storedWeight B c.recvMsgs + callWeight B key := by
  by_cases hkey : key = kAckKey ∨ key = kFinKey
  · obtain ⟨hmsgs, -, -, hacks⟩ := c.onMessage_control hkey v
    rw [hmsgs, hacks]
    exact Nat.le_add_right _ _
  have hcall : callSeq key = (splitChannelKey key).toOption.map Prod.snd := if_neg hkey
  have hnormal := c.normalOutcome hkey v
  generalize c.onMessage key v = o at hnormal ⊢
  rw [callWeight, hcall]
  cases hnormal with
  | stored ids hsplit =>
    rw [hsplit]
    exact (Nat.add_comm (ackWeight B _) (storedWeight B c.recvMsgs)).le
  | acknowledged ids hsplit =>
    rw [hsplit]
    exact Nat.add_le_add_left (acksWeight_sendAck_le _) _
  | _ => exact Nat.le_add_right _ _

theorem call_weight (s : Receiver) (key : Str) (v : Memory) :
    receiverWeight B (s.call key v).state + acksWeight B (s.call key v).acks ≤
      receiverWeight B s + callWeight B key := by
  have h := onMessage_weight (B := B) s.channel key v
  dsimp only [Receiver.call, receiverWeight]
  omega

/-- A request that arrives leaves a call of `OnMessage` to a handler, or makes it at once. -/
theorem request_weight (s : Receiver) (r : Request) :
    receiverWeight B (s.step (.request r)).state + acksWeight B (s.step (.request r)).acks ≤
      receiverWeight B s + (4 + callWeight B r.key) := by
  rw [Receiver.step]
  cases r with
  | mono key value =>
    have h := call_weight (B := B)
      { s with history := { s.history with delivered := .mono key value :: s.history.delivered } }
      key (value.map some)
    refine h.trans ?_
    dsimp only [receiverWeight, Request.key]
    omega
  | chunked c =>
    rw [Inbox.onRequest]
    cases hc : onChunkedMessage true s.inbox.chunkedValues c with
    | error err => exact Nat.le_add_right _ _
    | ok out =>
      obtain ⟨values, message⟩ := out
      rw [ok_bind]
      dsimp only [receiverWeight, Outcome.quiet, pure, Except.pure]
      rw [List.map_append, List.sum_append]
      cases message with
      | none =>
        simp only [Option.toList_none, List.map_nil, List.sum_nil, acksWeight]
        omega
      | some m =>
        simp only [Option.toList_some, List.map_cons, List.map_nil, List.sum_cons, List.sum_nil,
          handlerWeight, acksWeight, Request.key]
        omega

theorem passOn_weight (s : Receiver) {i : ℕ} (hi : i < s.inbox.handlers.length) :
    receiverWeight B (s.step (.passOn i)).state + acksWeight B (s.step (.passOn i)).acks + 4 ≤
      receiverWeight B s := by
  have hget := List.getElem?_eq_getElem hi
  have hsum := ((cons_eraseIdx_perm hget).map (handlerWeight B)).sum_eq
  rw [List.map_cons, List.sum_cons] at hsum
  rw [Receiver.step, hget]
  have h := call_weight (B := B)
    { s with inbox := { s.inbox with handlers := s.inbox.handlers.eraseIdx i } }
    s.inbox.handlers[i].1 s.inbox.handlers[i].2
  dsimp only [receiverWeight, handlerWeight] at h hsum ⊢
  omega

theorem stop_weight (s : Receiver) :
    receiverWeight B (s.step .stop).state + acksWeight B (s.step .stop).acks ≤
      receiverWeight B s := by
  have hacks : ∀ l : List (Str × Memory × ℕ),
      acksWeight B (l.flatMap fun e => Channel.sendAck e.2.2) ≤ storedWeight B l := by
    intro l
    induction l with
    | nil => exact le_rfl
    | cons e l ih =>
      rw [List.flatMap_cons, acksWeight_append, storedWeight, List.map_cons]
      exact Nat.add_le_add (acksWeight_sendAck_le _) ih
  have h := hacks s.channel.recvMsgs
  have hnil : storedWeight B [] = 0 := rfl
  dsimp only [Receiver.step, Channel.stopReceivingAndAckUnreadMsgs, receiverWeight]
  omega

end Receiver

/-! ### Submitting and notifying -/

section Submit

variable {B : ℕ}

/-- Nothing is submitted for an acknowledgement or a last message that arrives. -/
theorem taskWeight_control {key : Str} (hkey : key = kAckKey ∨ key = kFinKey) (b : ℕ)
    (value : List Byte) : taskWeight B (sendImpl b key value) = controlWeight b key value := by
  have hnone : callSeq key = none := if_pos hkey
  have hrequest : ∀ r ∈ sendImpl b key value, requestWeight B r = 8 := by
    intro r hr
    rw [requestWeight, key_of_mem_sendImpl hr, callWeight, hnone]
    rfl
  rw [taskWeight, List.map_congr_left hrequest, List.map_const', List.sum_replicate, controlWeight,
    smul_eq_mul, Nat.mul_comm]

namespace Endpoint

theorem weight_submit (e : Endpoint) (key : Str) (value : List Byte) :
    (e.submit key value).weight B =
      e.weight B + taskWeight B (sendImpl e.sender.bytesPerChunk key value) := by
  dsimp only [submit, weight]
  rw [List.map_append, List.sum_append, List.map_singleton, List.sum_singleton]
  omega

theorem weight_submitAcks (e : Endpoint) (acks : List ℕ) :
    (e.submitAcks acks).weight B = e.weight B + acksWeight e.sender.bytesPerChunk acks := by
  have hsum : ((acks.map fun a => sendImpl e.sender.bytesPerChunk kAckKey (toDecimal a)).map
      (taskWeight B)).sum = acksWeight e.sender.bytesPerChunk acks := by
    rw [List.map_map]
    exact congrArg List.sum (List.map_congr_left fun a _ => taskWeight_control (.inl rfl) _ _)
  rw [submitAcks_eq]
  dsimp only [weight]
  rw [List.map_append, List.sum_append]
  omega

theorem mainWeight_notify_le (fin : ℕ) (pc : MainPc) (cond : Option Cond) :
    mainWeight fin (cond.elim pc pc.notify) ≤ mainWeight fin pc + 1 := by
  rcases cond with - | - | - <;> rcases pc with - | - | - | b | b | - | - | - | b | b | - <;>
    first
    | exact Nat.le_succ _
    | (rcases b with - | - <;> simp [MainPc.notify, mainWeight])

theorem sendThreadWeight_notify_le (stopped : Bool) (pc : SendThreadPc) (cond : Option Cond) :
    sendThreadWeight stopped (cond.elim pc pc.notify) ≤ sendThreadWeight stopped pc + 1 := by
  rcases cond with - | - | - <;> rcases pc with - | - | - | - | ⟨s, b⟩ | - | - <;>
    first
    | exact Nat.le_succ _
    | (rcases stopped with - | - <;> rcases b with - | - <;>
        simp [SendThreadPc.notify, sendThreadWeight])

theorem weight_notify_le (e : Endpoint) (cond : Option Cond) :
    (e.notify cond).weight B ≤ e.weight B + 2 := by
  have hmain := mainWeight_notify_le
    (controlWeight e.sender.bytesPerChunk kFinKey (toDecimal e.sender.msgs.length)) e.main cond
  have hsend := sendThreadWeight_notify_le e.sendThreadStopped e.sendThread cond
  dsimp only [notify, weight]
  omega

theorem weight_receiver (e : Endpoint) (s : Receiver) (acks : List ℕ) :
    (({ e with receiver := s } : Endpoint).submitAcks acks).weight B +
        receiverWeight e.sender.bytesPerChunk e.receiver =
      e.weight B + (receiverWeight e.sender.bytesPerChunk s +
        acksWeight e.sender.bytesPerChunk acks) := by
  rw [weight_submitAcks]
  dsimp only [weight]
  omega

theorem weight_apply_le (e : Endpoint) (o : Outcome Receiver) :
    (e.apply o).weight B + receiverWeight e.sender.bytesPerChunk e.receiver ≤
      e.weight B + (receiverWeight e.sender.bytesPerChunk o.state +
        acksWeight e.sender.bytesPerChunk o.acks) + 2 := by
  have hnotify := weight_notify_le (B := B)
    ({ e with receiver := o.state }.submitAcks o.acks) o.notified
  have hreceiver := weight_receiver (B := B) e o.state o.acks
  rw [apply]
  omega

theorem apply_sender (e : Endpoint) (o : Outcome Receiver) : (e.apply o).sender = e.sender := by
  rw [apply_eq]

theorem apply_main (e : Endpoint) (o : Outcome Receiver) :
    (e.apply o).main = o.notified.elim e.main e.main.notify := by
  rw [apply_eq]

end Endpoint

end Submit

/-! ### The steps that are sure to come -/

namespace Endpoint

variable {e e' f f' : Endpoint} {B : ℕ}

theorem weight_main_lt {pc : MainPc}
    (h : mainWeight (controlWeight e.sender.bytesPerChunk kFinKey
        (toDecimal e.sender.msgs.length)) pc <
      mainWeight (controlWeight e.sender.bytesPerChunk kFinKey
        (toDecimal e.sender.msgs.length)) e.main) :
    ({ e with main := pc } : Endpoint).weight B < e.weight B := by
  dsimp only [weight]
  omega

theorem mainStep_weight_lt (h : e.mainStep = some e') :
    e'.sender = e.sender ∧ e'.weight B < e.weight B := by
  rw [mainStep] at h
  split at h
  · nomatch h
  · -- the stored messages become acknowledgements
    next hmain =>
    obtain rfl := Option.some_inj.mp h
    refine ⟨apply_sender _ _, ?_⟩
    have hreceiver := e.weight_receiver (B := B) (e.receiver.step .stop).state
      (e.receiver.step .stop).acks
    have hstop := stop_weight (B := e.sender.bytesPerChunk) e.receiver
    have hquiet : (e.apply (e.receiver.step .stop)).main = .stop := by
      rw [apply_main]
      exact hmain
    have hlt : { e.apply (e.receiver.step .stop) with main := .fin }.weight B <
        (e.apply (e.receiver.step .stop)).weight B := by
      refine weight_main_lt ?_
      rw [hquiet]
      dsimp only [mainWeight]
      omega
    have hnone : e.apply (e.receiver.step .stop) =
        { e with receiver := (e.receiver.step .stop).state }.submitAcks
          (e.receiver.step .stop).acks := rfl
    rw [← hnone] at hreceiver
    omega
  · -- the last message is submitted
    next hmain =>
    obtain rfl := Option.some_inj.mp h
    refine ⟨rfl, ?_⟩
    have hsubmit := e.weight_submit (B := B) kFinKey (toDecimal e.sender.msgs.length)
    rw [taskWeight_control (.inr rfl)] at hsubmit
    dsimp only [submitControl, submit, weight] at hsubmit ⊢
    rw [hmain] at hsubmit ⊢
    dsimp only [mainWeight] at hsubmit ⊢
    rw [if_neg Bool.false_ne_true]
    omega
  · nomatch h
  · next hmain =>
    split at h <;> obtain rfl := Option.some_inj.mp h <;>
      exact ⟨rfl, weight_main_lt (by rw [hmain]; simp [mainWeight])⟩
  · nomatch h
  · next hmain =>
    split at h <;> obtain rfl := Option.some_inj.mp h <;>
      exact ⟨rfl, weight_main_lt (by rw [hmain]; simp [mainWeight])⟩
  · next hmain =>
    obtain rfl := Option.some_inj.mp h
    have hstop : sendThreadWeight true e.sendThread ≤
        sendThreadWeight e.sendThreadStopped e.sendThread := by
      rcases e.sendThreadStopped with - | -
      · rcases e.sendThread with - | - | - | - | ⟨s, - | -⟩ | - | - <;> simp [sendThreadWeight]
      · exact le_rfl
    refine ⟨rfl, ?_⟩
    dsimp only [weight]
    rw [hmain]
    dsimp only [mainWeight]
    omega
  · next hmain =>
    obtain rfl := Option.some_inj.mp h
    have hqueue : sendThreadWeight e.sendThreadStopped e.sendThread.notifyQueue ≤
        sendThreadWeight e.sendThreadStopped e.sendThread + 3 := by
      rcases e.sendThread with - | - | - | - | - | - | - <;>
        rcases e.sendThreadStopped with - | - <;> simp [SendThreadPc.notifyQueue, sendThreadWeight]
    refine ⟨rfl, ?_⟩
    dsimp only [weight, notifyQueue]
    rw [hmain]
    dsimp only [mainWeight]
    omega
  · next hmain =>
    split at h
    · obtain rfl := Option.some_inj.mp h
      exact ⟨rfl, weight_main_lt (by rw [hmain]; simp [mainWeight])⟩
    · nomatch h
  · nomatch h
  · next hmain =>
    split at h <;> obtain rfl := Option.some_inj.mp h <;>
      exact ⟨rfl, weight_main_lt (by rw [hmain]; simp [mainWeight])⟩
  · nomatch h
  · next hmain =>
    split at h <;> obtain rfl := Option.some_inj.mp h <;>
      exact ⟨rfl, weight_main_lt (by rw [hmain]; simp [mainWeight])⟩
  · nomatch h

theorem weight_sendThread_lt {pc : SendThreadPc}
    (h : sendThreadWeight e.sendThreadStopped pc <
      sendThreadWeight e.sendThreadStopped e.sendThread) :
    ({ e with sendThread := pc } : Endpoint).weight B < e.weight B := by
  dsimp only [weight]
  omega

theorem weight_take_lt {key : Str} {value : List Byte} {seqId : ℕ}
    {queue : List (Str × List Byte × ℕ)} (hqueue : e.queue = (key, value, seqId) :: queue)
    {pc : SendThreadPc} (hpc : sendThreadWeight e.sendThreadStopped pc <
      sendThreadWeight e.sendThreadStopped e.sendThread + 8) :
    ({ e.submit key value with queue := queue, sendThread := pc } : Endpoint).weight B <
      e.weight B := by
  have hsubmit := e.weight_submit (B := B) key value
  dsimp only [submit, weight] at hsubmit ⊢
  rw [hqueue, List.map_cons, List.sum_cons] at hsubmit ⊢
  dsimp only at hsubmit ⊢
  omega

/-- Every place of the thread is at most seven above the place after a message was taken. -/
theorem takeMsg_weight_lt
    (htop : sendThreadWeight e.sendThreadStopped .top <
      sendThreadWeight e.sendThreadStopped e.sendThread ∨ e.queue ≠ [])
    (hpc : 1 ≤ sendThreadWeight e.sendThreadStopped e.sendThread) :
    e.takeMsg.sender = e.sender ∧ e.takeMsg.weight B < e.weight B := by
  rw [takeMsg]
  split
  · next hqueue => exact ⟨rfl, weight_sendThread_lt (htop.resolve_right fun hne => hne hqueue)⟩
  · next key value seqId queue hqueue =>
    refine ⟨rfl, weight_take_lt hqueue ?_⟩
    have hle : sendThreadWeight e.sendThreadStopped (.throttle seqId false) ≤ 8 := by
      rcases e.sendThreadStopped with - | - <;> simp [sendThreadWeight]
    omega

theorem sendThreadStep_weight_lt (hstop : e.queueStopped → e.sendThreadStopped)
    (h : e.sendThreadStep = some e') : e'.sender = e.sender ∧ e'.weight B < e.weight B := by
  rw [sendThreadStep] at h
  split at h
  · next hpc =>
    obtain rfl := Option.some_inj.mp h
    refine ⟨rfl, weight_sendThread_lt ?_⟩
    rw [hpc]
    rcases e.sendThreadStopped with - | - <;> simp [sendThreadWeight]
  · next hpc =>
    split at h
    · obtain rfl := Option.some_inj.mp h
      refine ⟨rfl, weight_sendThread_lt ?_⟩
      rw [hpc]
      rcases e.sendThreadStopped with - | - <;> simp [sendThreadWeight]
    · next hcond =>
      obtain rfl := Option.some_inj.mp h
      rw [not_and_or, not_not] at hcond
      refine takeMsg_weight_lt (hcond.symm.imp_left fun hq => ?_) ?_
      · rw [hpc, hstop hq]
        decide
      · rw [hpc]
        rcases e.sendThreadStopped with - | - <;> simp [sendThreadWeight]
  · nomatch h
  · next hpc =>
    obtain rfl := Option.some_inj.mp h
    refine takeMsg_weight_lt (.inl ?_) ?_ <;> rw [hpc] <;>
      rcases e.sendThreadStopped with - | - <;> simp [sendThreadWeight]
  · nomatch h
  · next seqId hpc =>
    split at h <;> obtain rfl := Option.some_inj.mp h <;> refine ⟨rfl, weight_sendThread_lt ?_⟩ <;>
      rw [hpc] <;> rcases e.sendThreadStopped with - | - <;> simp [sendThreadWeight]
  · next hpc =>
    split at h
    · obtain rfl := Option.some_inj.mp h
      refine ⟨rfl, weight_sendThread_lt ?_⟩
      rw [hpc]
      rcases e.sendThreadStopped with - | - <;> simp [sendThreadWeight]
    · next key value seqId queue hqueue =>
      obtain rfl := Option.some_inj.mp h
      exact ⟨rfl, weight_take_lt hqueue (Nat.lt_add_of_pos_right (by omega))⟩
  · nomatch h

theorem weight_receive_le (f : Endpoint) (r : Request) :
    (f.receive r).weight B ≤ f.weight B + (6 + callWeight f.sender.bytesPerChunk r.key) := by
  have happly := f.weight_apply_le (B := B) (f.receiver.step (.request r))
  have hrequest := request_weight (B := f.sender.bytesPerChunk) f.receiver r
  rw [receive]
  omega

theorem weight_deliver (e : Endpoint) {i j : ℕ} {requests : List Request} {r : Request}
    (hi : e.tasks[i]? = some requests) (hj : requests[j]? = some r) :
    ({ e with tasks := e.tasks.set i (requests.eraseIdx j) } : Endpoint).weight B +
      requestWeight B r = e.weight B := by
  have hrequests := ((cons_eraseIdx_perm hj).map (requestWeight B)).sum_eq
  have htasks := ((cons_eraseIdx_perm hi).map (taskWeight B)).sum_eq
  have hset : (e.tasks.set i (requests.eraseIdx j))[i]? = some (requests.eraseIdx j) := by
    rw [List.getElem?_set_self (List.getElem?_eq_some_iff.mp hi).1]
  have htasks' := ((cons_eraseIdx_perm hset).map (taskWeight B)).sum_eq
  rw [List.eraseIdx_set_eq, List.map_cons, List.sum_cons, taskWeight] at htasks'
  rw [List.map_cons, List.sum_cons] at hrequests htasks
  rw [taskWeight] at htasks
  dsimp only [weight]
  omega

theorem weight_taskDone_lt (e : Endpoint) {i : ℕ} (hi : e.tasks[i]? = some []) :
    ({ e with tasks := e.tasks.eraseIdx i }.notifyFinished : Endpoint).weight B < e.weight B := by
  have htasks := ((cons_eraseIdx_perm hi).map (taskWeight B)).sum_eq
  rw [List.map_cons, List.sum_cons, taskWeight, List.map_nil] at htasks
  have hmain : ∀ fin, mainWeight fin e.main.notifyFinished ≤ mainWeight fin e.main + 1 := by
    intro fin
    rcases e.main with - | - | - | - | - | - | - | - | b | - | - <;>
      first
      | exact Nat.le_succ _
      | (rcases b with - | - <;> simp [MainPc.notifyFinished, mainWeight])
  have hfin := hmain (controlWeight e.sender.bytesPerChunk kFinKey
    (toDecimal e.sender.msgs.length))
  dsimp only [weight, notifyFinished]
  omega

end Endpoint

/-- **Progress makes the two sides lighter.** -/
theorem act_weight_lt {e e' f f' : Endpoint} {a : Action}
    (hstop : e.queueStopped → e.sendThreadStopped) (ha : a.Required)
    (h : act e f a = some (e', f')) : weight e' f' < weight e f := by
  cases a with
  | main =>
    obtain ⟨e₁, he₁, heq⟩ := Option.map_eq_some_iff.mp h
    obtain ⟨rfl, rfl⟩ := Prod.mk.inj heq
    obtain ⟨hsender, hlt⟩ := Endpoint.mainStep_weight_lt (B := f.sender.bytesPerChunk) he₁
    rw [weight, weight, hsender]
    omega
  | sendThread =>
    obtain ⟨e₁, he₁, heq⟩ := Option.map_eq_some_iff.mp h
    obtain ⟨rfl, rfl⟩ := Prod.mk.inj heq
    obtain ⟨hsender, hlt⟩ :=
      Endpoint.sendThreadStep_weight_lt (B := f.sender.bytesPerChunk) hstop he₁
    rw [weight, weight, hsender]
    omega
  | deliver i j =>
    rw [act] at h
    split at h
    · nomatch h
    next requests hi =>
    split at h
    · nomatch h
    next r hj =>
    obtain ⟨rfl, rfl⟩ := Prod.mk.inj (Option.some_inj.mp h)
    have hdeliver := e.weight_deliver (B := f.sender.bytesPerChunk) hi hj
    have hreceive := f.weight_receive_le (B := e.sender.bytesPerChunk) r
    have hsender : (f.receive r).sender = f.sender := Endpoint.apply_sender _ _
    rw [requestWeight] at hdeliver
    rw [weight, weight, hsender]
    dsimp only
    omega
  | passOn i =>
    rw [act] at h
    split at h
    · next hi =>
      obtain ⟨rfl, rfl⟩ := Prod.mk.inj (Option.some_inj.mp h)
      have happly := e.weight_apply_le (B := f.sender.bytesPerChunk) (e.receiver.step (.passOn i))
      have hpass := passOn_weight (B := e.sender.bytesPerChunk) e.receiver hi
      rw [weight, weight, Endpoint.apply_sender]
      omega
    · nomatch h
  | taskDone i =>
    rw [act] at h
    split at h
    · next hi =>
      obtain ⟨rfl, rfl⟩ := Prod.mk.inj (Option.some_inj.mp h)
      have hlt := e.weight_taskDone_lt (B := f.sender.bytesPerChunk) hi
      exact Nat.add_lt_add_right hlt _
    · nomatch h
  | _ => exact ha.elim

end Yacl.Link.Shutdown
