import Yacl.Link.Delivery

/-!
# Two channels

The system of two channels that send to each other and shut down with `WaitLinkTaskFinish`, from
`yacl/link/transport/channel.cc`. Each side has its receiving half, the queue `send_msgs_`, the
thread of `SendThread`, the running `SendTask`s, and the thread of the user. An action is a critical
section of one of these threads, or the delivery of a request by the network. Sequence numbers are
enabled; timeouts and `Abort` are not modelled, and threads can always be started.

A `SendTask` hands the requests of `SendImpl` to the network and ends when each of them was
delivered. The network may deliver a request again at any time. A thread that waits on a condition
variable is asleep until it is notified; it may also wake up by itself, and then looks at its
condition again.

The thread of the user may send and receive as it likes. `Send` and `SendAsyncThrottled` only make
it wait longer, so they are not told apart from `SendAsync`. After its last call it calls
`WaitLinkTaskFinish`.
-/

open Bytes
open Yacl.Utils (SegmentTree)

namespace Yacl.Link.Shutdown

/-! ### One side -/

/-- Where the thread of the user is. The arguments tell whether it is asleep. -/
inductive MainPc where
  /-- `WaitLinkTaskFinish` was not called yet. -/
  | running
  /-- Before `StopReceivingAndAckUnreadMsgs`. -/
  | stop
  /-- Before the last message is submitted. -/
  | fin
  /-- In the first loop of `WaitForFinAndFlyingMsg`. -/
  | waitFin (asleep : Bool)
  /-- In the second loop of `WaitForFinAndFlyingMsg`. -/
  | waitMsgs (asleep : Bool)
  /-- Before `send_thread_stopped_` is set. -/
  | stopSend
  /-- Before `EmptyNotify`. -/
  | emptyNotify
  /-- Before `send_thread_.join()`. -/
  | join
  /-- In the loop of `WaitAllSendFinished`. -/
  | waitSend (asleep : Bool)
  /-- In the loop of `WaitForFlyingAck`. -/
  | waitAck (asleep : Bool)
  /-- `WaitLinkTaskFinish` has returned. -/
  | done
deriving DecidableEq

/-- Where the thread of `SendThread` is. -/
inductive SendThreadPc where
  /-- At the head of the first loop. -/
  | top
  /-- Before `Pop(true)`. -/
  | pop
  /-- Asleep in `Pop(true)`. -/
  | popWait
  /-- Woken up in `Pop(true)`. -/
  | popWoken
  /-- In the loop of `ThrottleWindowWait`. -/
  | throttle (seqId : ℕ) (asleep : Bool)
  /-- In the second loop. -/
  | drain
  /-- `SendThread` has returned. -/
  | exited
deriving DecidableEq

/-- The thread of the user is woken up if it waits on a condition variable. -/
def MainPc.notify : MainPc → Cond → MainPc
  | .waitMsgs _, .msgDb => .waitMsgs false
  | .waitFin _, .ackFin => .waitFin false
  | .waitAck _, .ackFin => .waitAck false
  | pc, _ => pc

def MainPc.notifyFinished : MainPc → MainPc
  | .waitSend _ => .waitSend false
  | pc => pc

/-- The thread of `SendThread` is woken up if it waits on a condition variable. -/
def SendThreadPc.notify : SendThreadPc → Cond → SendThreadPc
  | .throttle seqId _, .ackFin => .throttle seqId false
  | pc, _ => pc

def SendThreadPc.notifyQueue : SendThreadPc → SendThreadPc
  | .popWait => .popWoken
  | pc => pc

/-- The settings of a channel, and the number of messages that its user sends at most. -/
structure ChannelConfig where
  rank : ℕ
  /-- `GetMaxBytesPerChunk`. -/
  bytesPerChunk : ℕ
  /-- `throttle_window_size_`. -/
  throttleWindowSize : ℕ
  maxMsgs : ℕ
  bytesPerChunk_pos : 1 ≤ bytesPerChunk
  throttleWindowSize_lt : throttleWindowSize < 2 ^ 64
  maxMsgs_lt : maxMsgs + 1 < 2 ^ 64

/-- One side: the channel, the queue of its sending thread, the tasks that send the chunks, and
where its threads are. -/
structure Endpoint where
  config : ChannelConfig
  /-- The messages of the user. Their number is `msg_seq_id_`. -/
  sender : Sender
  receiver : Receiver
  /-- `send_msgs_`: keys, values and sequence numbers. -/
  queue : List (Str × List Byte × ℕ)
  /-- `stopped_` of `send_msgs_`. -/
  queueStopped : Bool
  /-- `send_thread_stopped_`. -/
  sendThreadStopped : Bool
  sendThread : SendThreadPc
  /-- The running tasks: the requests of each that were not delivered yet. -/
  tasks : List (List Request)
  /-- The threads in `Recv` that are about to call `SendAck`. -/
  acking : List ℕ
  main : MainPc
  /-- The acknowledgements and last messages that were submitted so far. -/
  controls : List (Str × List Byte)

/-- A new channel. -/
def Endpoint.start (c : ChannelConfig) : Endpoint where
  config := c
  sender :=
    { rank := c.rank
      bytesPerChunk := c.bytesPerChunk
      disableMsgSeqId := false
      msgs := []
      bytesPerChunk_pos := c.bytesPerChunk_pos
      keys_nodup := List.nodup_nil
      length_lt := by decide }
  receiver := .empty
  queue := []
  queueStopped := false
  sendThreadStopped := false
  sendThread := .top
  tasks := []
  acking := []
  main := .running
  controls := []

namespace Endpoint

/-! ### Submitting and notifying -/

/-- `SubmitSendTask` for a normal message. -/
def submit (e : Endpoint) (key : Str) (value : List Byte) : Endpoint :=
  { e with tasks := e.tasks ++ [sendImpl e.sender.bytesPerChunk key value] }

/-- `SubmitSendTask` for an acknowledgement or the last message. -/
def submitControl (e : Endpoint) (key : Str) (value : List Byte) : Endpoint :=
  { e.submit key value with controls := (key, value) :: e.controls }

/-- `SendAck` for each of the numbers. -/
def submitAcks (e : Endpoint) (acks : List ℕ) : Endpoint :=
  acks.foldl (fun e a => e.submitControl kAckKey (toDecimal a)) e

/-- `notify_all` wakes all threads that wait on a condition variable of `msg_mutex_`. -/
def notify (e : Endpoint) (cond : Option Cond) : Endpoint :=
  { e with
    main := cond.elim e.main e.main.notify
    sendThread := cond.elim e.sendThread e.sendThread.notify }

/-- `notify_all` on the condition variable of `send_msgs_`. -/
def notifyQueue (e : Endpoint) : Endpoint := { e with sendThread := e.sendThread.notifyQueue }

/-- `notify_all` on `finished_cond_`. -/
def notifyFinished (e : Endpoint) : Endpoint := { e with main := e.main.notifyFinished }

/-- What a call of the receiving half does to the rest of the channel. -/
def apply (e : Endpoint) (o : Outcome Receiver) : Endpoint :=
  (({ e with receiver := o.state } : Endpoint).submitAcks o.acks).notify o.notified

theorem submitAcks_eq (e : Endpoint) (acks : List ℕ) :
    e.submitAcks acks = { e with
      tasks := e.tasks ++
        acks.map fun a => sendImpl e.sender.bytesPerChunk kAckKey (toDecimal a)
      controls := (acks.map fun a => (kAckKey, toDecimal a)).reverse ++ e.controls } := by
  induction acks generalizing e with
  | nil => rw [List.map_nil, List.append_nil]; rfl
  | cons a acks ih =>
    have hcons : e.submitAcks (a :: acks) =
        (e.submitControl kAckKey (toDecimal a)).submitAcks acks := rfl
    rw [hcons, ih, List.map_cons, List.map_cons, List.reverse_cons]
    simp only [submitControl, submit, List.append_assoc, List.singleton_append]

theorem apply_eq (e : Endpoint) (o : Outcome Receiver) :
    e.apply o = { e with
      receiver := o.state
      tasks := e.tasks ++
        o.acks.map fun a => sendImpl e.sender.bytesPerChunk kAckKey (toDecimal a)
      controls := (o.acks.map fun a => (kAckKey, toDecimal a)).reverse ++ e.controls
      main := o.notified.elim e.main e.main.notify
      sendThread := o.notified.elim e.sendThread e.sendThread.notify } := by
  rw [apply, submitAcks_eq]
  rfl

/-! ### The threads -/

/-- The negation of the condition of the loops that wait for the numbers from 1 to `n`. -/
def covered (ids : SegmentTree) (n : ℕ) : Bool :=
  !(ids.segmentsCount > 1 || !ids.contains 1 || !ids.contains n)

/-- `WaitLinkTaskFinish`, one critical section after the other. -/
def mainStep (e : Endpoint) : Option Endpoint :=
  match e.main with
  | .running => none
  | .stop => some { e.apply (e.receiver.step .stop) with main := .fin }
  | .fin =>
    some { e.submitControl kFinKey (toDecimal e.sender.msgs.length) with main := .waitFin false }
  | .waitFin true => none
  | .waitFin false =>
    if e.receiver.channel.receivedFin then some { e with main := .waitMsgs false }
    else some { e with main := .waitFin true }
  | .waitMsgs true => none
  | .waitMsgs false =>
    if e.receiver.channel.peerSentMsgCount = 0 ∨
        covered e.receiver.channel.receivedMsgIds e.receiver.channel.peerSentMsgCount then
      some { e with main := .stopSend }
    else some { e with main := .waitMsgs true }
  | .stopSend => some { e with sendThreadStopped := true, main := .emptyNotify }
  | .emptyNotify => some { e.notifyQueue with queueStopped := true, main := .join }
  | .join => if e.sendThread = .exited then some { e with main := .waitSend false } else none
  | .waitSend true => none
  | .waitSend false =>
    if e.tasks ≠ [] then some { e with main := .waitSend true }
    else some { e with main := .waitAck false }
  | .waitAck true => none
  | .waitAck false =>
    if e.sender.msgs.length = 0 ∨
        covered e.receiver.channel.receivedAckIds e.sender.msgs.length then
      some { e with main := .done }
    else some { e with main := .waitAck true }
  | .done => none

/-- The end of `Pop`, and `SubmitSendTask` for what it returned. -/
def takeMsg (e : Endpoint) : Endpoint :=
  match e.queue with
  | [] => { e with sendThread := .top }
  | (key, value, seqId) :: queue =>
    { e.submit key value with queue := queue, sendThread := .throttle seqId false }

/-- The condition of the loop in `ThrottleWindowWait`, for numbers of type `size_t`. -/
def throttled (e : Endpoint) (waitCount : ℕ) : Bool :=
  e.config.throttleWindowSize ≠ 0 &&
    (e.receiver.channel.receivedAckIds.count + e.config.throttleWindowSize) % 2 ^ 64 ≤ waitCount

/-- `SendThread`, one step after the other. -/
def sendThreadStep (e : Endpoint) : Option Endpoint :=
  match e.sendThread with
  | .top => some { e with sendThread := if e.sendThreadStopped then .drain else .pop }
  | .pop =>
    if e.queue = [] ∧ ¬e.queueStopped then some { e with sendThread := .popWait }
    else some e.takeMsg
  | .popWait => none
  | .popWoken => some e.takeMsg
  | .throttle _ true => none
  | .throttle seqId false =>
    if e.throttled seqId then some { e with sendThread := .throttle seqId true }
    else some { e with sendThread := .top }
  | .drain =>
    match e.queue with
    | [] => some { e with sendThread := .exited }
    | (key, value, _) :: queue => some { e.submit key value with queue := queue }
  | .exited => none

/-- `SendAsync`: the message gets its number and goes to the queue. -/
def send (e : Endpoint) (m : Msg) (hkey : m.key ∉ e.sender.msgs.map Msg.key)
    (hlen : e.sender.msgs.length + 2 < 2 ^ 64) : Endpoint :=
  let i := e.sender.msgs.length
  { e.notifyQueue with
    sender := e.sender.push m hkey hlen
    queue := e.queue ++ [(e.sender.channelKey i m, m.value, e.sender.seqId i)] }

end Endpoint

/-! ### Actions -/

/-- What one side can do, and what the network can do with its requests. -/
inductive Action where
  /-- The user sends a message. -/
  | send (m : Msg)
  /-- A thread of the user looks for a message. -/
  | recv (key : Str)
  /-- A thread in `Recv` acknowledges its message. -/
  | ackRecv (i : ℕ)
  /-- The user calls `WaitLinkTaskFinish`. -/
  | finish
  /-- The thread of `WaitLinkTaskFinish` goes on. -/
  | main
  /-- The thread of `SendThread` goes on. -/
  | sendThread
  /-- A request of a task is delivered for the first time. -/
  | deliver (task request : ℕ)
  /-- A request is delivered again. -/
  | redeliver (r : Request)
  /-- The message of `TestSend` is delivered. -/
  | test
  /-- A handler thread passes its message on. -/
  | passOn (i : ℕ)
  /-- A task ends. -/
  | taskDone (task : ℕ)
  /-- The threads wake up by themselves. -/
  | wake

/-- The actions that are sure to come: threads go on, requests are delivered at least once. -/
def Action.Required : Action → Prop
  | .main => True
  | .sendThread => True
  | .deliver _ _ => True
  | .passOn _ => True
  | .taskDone _ => True
  | _ => False

/-- The request arrives at the other side. -/
def Endpoint.receive (f : Endpoint) (r : Request) : Endpoint :=
  f.apply (f.receiver.step (.request r))

/-- An action of one side `e`; the other side is `f`. -/
def act (e f : Endpoint) : Action → Option (Endpoint × Endpoint)
  | .send m =>
    if h : e.main = .running ∧ m.key ∉ e.sender.msgs.map Msg.key ∧ m.key ≠ e.sender.testKey ∧
        e.sender.msgs.length < e.config.maxMsgs then
      some (e.send m h.2.1 (by have := e.config.maxMsgs_lt; omega), f)
    else none
  | .recv key =>
    if e.main = .running then
      let o := e.receiver.step (.recv key)
      some ({ e with receiver := o.state, acking := o.acks ++ e.acking }, f)
    else none
  | .ackRecv i =>
    match e.acking[i]? with
    | none => none
    | some a =>
      some ({ e.submitControl kAckKey (toDecimal a) with acking := e.acking.eraseIdx i }, f)
  | .finish =>
    if e.main = .running ∧ e.acking = [] then some ({ e with main := .stop }, f) else none
  | .main => e.mainStep.map fun e => (e, f)
  | .sendThread => e.sendThreadStep.map fun e => (e, f)
  | .deliver i j =>
    match e.tasks[i]? with
    | none => none
    | some requests => match requests[j]? with
      | none => none
      | some r => some ({ e with tasks := e.tasks.set i (requests.eraseIdx j) }, f.receive r)
  | .redeliver r => if r ∈ f.receiver.history.delivered then some (e, f.receive r) else none
  | .test => some (e, f.receive (.mono (buildChannelKey e.sender.testKey 0) []))
  | .passOn i =>
    if i < e.receiver.inbox.handlers.length then some (e.apply (e.receiver.step (.passOn i)), f)
    else none
  | .taskDone i =>
    if e.tasks[i]? = some [] then some ({ e with tasks := e.tasks.eraseIdx i }.notifyFinished, f)
    else none
  | .wake => some ((((e.notify (some .msgDb)).notify (some .ackFin)).notifyQueue).notifyFinished, f)

/-- The two sides. -/
inductive Side where
  | left
  | right
deriving DecidableEq

/-- Two channels. -/
structure System where
  left : Endpoint
  right : Endpoint

/-- A step of the system: an action of one side. -/
def System.step (s : System) : Side → Action → Option System
  | .left, a => (act s.left s.right a).map fun (l, r) => ⟨l, r⟩
  | .right, a => (act s.right s.left a).map fun (r, l) => ⟨l, r⟩

/-- The settings of both sides. -/
structure Config where
  left : ChannelConfig
  right : ChannelConfig

/-- **Reachable states.** -/
inductive Reachable (c : Config) : System → Prop
  | start : Reachable c ⟨.start c.left, .start c.right⟩
  | step {s s' : System} {p : Side} {a : Action} (h : Reachable c s) (hs : s.step p a = some s') :
      Reachable c s'

/-- Both users have called `WaitLinkTaskFinish`. -/
def System.Closing (s : System) : Prop := s.left.main ≠ .running ∧ s.right.main ≠ .running

/-- A step that is sure to come. -/
def System.Progress (s s' : System) : Prop := ∃ p a, a.Required ∧ s.step p a = some s'

/-- Everything has come to an end. -/
def System.Terminal (s : System) : Prop := ∀ s', ¬s.Progress s'

/-- The side `e` has received everything from `f`, and knows that `f` has received everything from
it. -/
structure Endpoint.Settled (e f : Endpoint) : Prop where
  received : ∀ i ∈ Finset.Icc 1 f.sender.msgs.length,
    e.receiver.channel.receivedMsgIds.contains i
  acked : ∀ i ∈ Finset.Icc 1 e.sender.msgs.length,
    e.receiver.channel.receivedAckIds.contains i ∧ f.receiver.channel.receivedMsgIds.contains i

/-- **Graceful shutdown**, in every run: a side whose `WaitLinkTaskFinish` has returned is settled;
and after both users have called it, the steps that are sure to come do not go on forever, and end
only when both calls have returned. -/
structure Config.Graceful (c : Config) : Prop where
  settled : ∀ s, Reachable c s →
    (s.left.main = .done → s.left.Settled s.right) ∧ (s.right.main = .done → s.right.Settled s.left)
  terminates : ∀ s, Reachable c s → s.Closing → Acc (fun s' s => System.Progress s s') s
  finished : ∀ s, Reachable c s → s.Closing → s.Terminal →
    s.left.main = .done ∧ s.right.main = .done

/-- The other side can acknowledge all messages of this side: at most one acknowledgement is too
long for one chunk, and the sum in `ThrottleWindowWait` does not wrap around. -/
def ChannelConfig.Fits (c d : ChannelConfig) : Prop :=
  c.maxMsgs ≤ 10 ^ d.bytesPerChunk ∧
    (c.throttleWindowSize = 0 ∨ c.throttleWindowSize + c.maxMsgs < 2 ^ 64)

end Yacl.Link.Shutdown
