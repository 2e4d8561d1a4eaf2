import Yacl.Link.Shutdown.Stuck

/-!
# Runs that lose an acknowledgement

The runs that show that the bounds of `ChannelConfig.Fits` are needed. One side sends one short
message after the other (`Sending`). The user of the other side has called `WaitLinkTaskFinish` and
sends nothing, so its channel answers each message with an acknowledgement (`Answering`). After as
many of these exchanges as the bounds allow (`exchanges`), one of two things happens.

* The sum in `ThrottleWindowWait` wraps around to 0 when the last acknowledgement has come, and the
  thread of `SendThread` waits forever (`lost_throttle`).
* The next acknowledgement is the second that needs two chunks. The second chunk of the first one is
  delivered again, takes the place of its own second chunk, and the two together are the first
  acknowledgement once more (`lost_ack`).
-/

open Bytes
open Yacl.Utils (SegmentTree)

namespace Yacl.Link

/-! ### Decimal numbers -/

theorem toDecimal_ten_mul_add {n d : ℕ} (hn : 0 < n) (hd : d < 10) :
    toDecimal (10 * n + d) = toDecimal n ++ [digitChar d] := by
  have hne : ¬10 * n + d = 0 := by omega
  rw [toDecimal, toDecimal, if_neg hne, if_neg (by omega), Nat.add_comm,
    Nat.digits_add 10 (by decide) d n hd (.inr (by omega)), List.map_cons, List.reverse_cons]

theorem length_toDecimal_pow (k : ℕ) : (toDecimal (10 ^ k)).length = k + 1 := by
  induction k with
  | zero => decide
  | succ k ih =>
    have hsucc : 10 ^ (k + 1) = 10 * 10 ^ k + 0 := by rw [pow_succ, Nat.mul_comm, Nat.add_zero]
    have hpos : 0 < 10 ^ k := Nat.pow_pos (by decide)
    rw [hsucc, toDecimal_ten_mul_add hpos (by decide), List.length_append, ih]
    rfl

theorem toDecimal_inj {a b : ℕ} (ha : a < 2 ^ 64) (hb : b < 2 ^ 64)
    (h : toDecimal a = toDecimal b) : a = b := by
  have hview := viewToSizeT_toDecimal ha
  rw [h, viewToSizeT_toDecimal hb] at hview
  exact (Except.ok.inj hview).symm

theorem length_toDecimal_lt {a : ℕ} (ha : a < 2 ^ 64) : (toDecimal a).length < 2 ^ 63 :=
  (Shutdown.Endpoint.length_toDecimal_le (k := 20) (ha.trans (by decide)) (by decide)).trans_lt
    (by decide)

theorem find_toDecimal (n : ℕ) : find kSeqKey (toDecimal n) = none :=
  find_kSeqKey_eq_none fun h => absurd (mem_toDecimal h).1 (by decide)

namespace Shutdown

/-! ### Runs -/

/-- A step of two sides. -/
def Step (x y : Endpoint × Endpoint) : Prop :=
  (∃ a, act x.1 x.2 a = some y) ∨ ∃ a, act x.2 x.1 a = some y.swap

/-- A run of two sides. -/
abbrev Leads : Endpoint × Endpoint → Endpoint × Endpoint → Prop := Relation.ReflTransGen Step

theorem Leads.fst {e f e' f' : Endpoint} {a : Action} (h : act e f a = some (e', f')) :
    Leads (e, f) (e', f') := .single (.inl ⟨a, h⟩)

theorem Leads.snd {e f e' f' : Endpoint} {a : Action} (h : act f e a = some (f', e')) :
    Leads (e, f) (e', f') := .single (.inr ⟨a, h⟩)

/-- A run from the start on shows that a state can be reached, whichever side comes first. -/
theorem Leads.reachable {c : Config} {x : Endpoint × Endpoint} :
    (Leads (.start c.left, .start c.right) x → Reachable c ⟨x.1, x.2⟩) ∧
      (Leads (.start c.right, .start c.left) x → Reachable c ⟨x.2, x.1⟩) := by
  constructor
  · intro h
    induction h with
    | refl => exact .start
    | tail _ hstep ih =>
      rcases hstep with ⟨a, hact⟩ | ⟨a, hact⟩
      · exact ih.step (p := .left) (Option.map_eq_some_iff.mpr ⟨_, hact, rfl⟩)
      · exact ih.step (p := .right) (Option.map_eq_some_iff.mpr ⟨_, hact, rfl⟩)
  · intro h
    induction h with
    | refl => exact .start
    | tail _ hstep ih =>
      rcases hstep with ⟨a, hact⟩ | ⟨a, hact⟩
      · exact ih.step (p := .right) (Option.map_eq_some_iff.mpr ⟨_, hact, rfl⟩)
      · exact ih.step (p := .left) (Option.map_eq_some_iff.mpr ⟨_, hact, rfl⟩)

/-! ### The two sides -/

/-- An empty message; its key is a number. -/
def numbered (j : ℕ) : Msg where
  key := toDecimal j
  value := []
  key_enforce := by
    rw [normalMessageKeyEnforce, enforce_bind (toDecimal_ne_nil j),
      enforce_of_pos (find_toDecimal j)]
  length_lt := by decide

/-- The key of a numbered message on the wire. -/
def wireKey (j : ℕ) : Str := buildChannelKey (toDecimal j) j

/-- A side that has sent `n` numbered messages. -/
structure Sending (e : Endpoint) (c : ChannelConfig) (n : ℕ) (acked : Finset ℕ)
    (tasks : List (List Request)) (pc : SendThreadPc) : Prop where
  config : e.config = c
  seqIds : e.sender.disableMsgSeqId = false
  msgs : e.sender.msgs = (List.range n).map fun j => numbered (j + 1)
  queue : e.queue = []
  tasks : e.tasks = tasks
  sendThread : e.sendThread = pc
  running : e.main = .running
  stopped : e.sendThreadStopped = false
  acking : e.acking = []
  values : e.receiver.inbox.chunkedValues kAckKey = none
  handlers : e.receiver.inbox.handlers = []
  stored : e.receiver.channel.recvMsgs = []
  acks : e.receiver.channel.receivedAckIds.Represents acked

/-- A side that acknowledges what it receives. -/
structure Answering (f : Endpoint) (d : ChannelConfig) (n : ℕ) (tasks : List (List Request)) :
    Prop where
  bytesPerChunk : f.sender.bytesPerChunk = d.bytesPerChunk
  queue : f.queue = []
  tasks : f.tasks = tasks
  finishing : f.main = .fin
  handlers : f.receiver.inbox.handlers = []
  stored : f.receiver.channel.recvMsgs = []
  waiting : f.receiver.channel.waitingFinish = true
  ids : f.receiver.channel.receivedMsgIds.Represents (Finset.Icc 1 n)

variable {e f : Endpoint} {c d : ChannelConfig} {n : ℕ} {acked : Finset ℕ}
  {tasks : List (List Request)} {pc : SendThreadPc}

theorem Sending.length_msgs (h : Sending e c n acked tasks pc) : e.sender.msgs.length = n := by
  rw [h.msgs, List.length_map, List.length_range]

/-- The start of a run: the user of the second side calls `WaitLinkTaskFinish`. -/
theorem start_runs (c d : ChannelConfig) :
    ∃ f, Leads (.start c, .start d) (.start c, f) ∧ Sending (.start c) c 0 ∅ [] .top ∧
      Answering f d 0 [] := by
  have hfinish : act (.start d) (.start c) .finish =
      some ({ Endpoint.start d with main := .stop }, .start c) := rfl
  have hstop : act { Endpoint.start d with main := .stop } (.start c) .main =
      some ({ { Endpoint.start d with main := .stop }.apply
        (Receiver.empty.step .stop) with main := .fin }, .start c) := rfl
  refine ⟨_, (Leads.snd hfinish).trans (Leads.snd hstop), ?_, ?_⟩
  · exact ⟨rfl, rfl, rfl, rfl, rfl, rfl, rfl, rfl, rfl, rfl, rfl, rfl, SegmentTree.empty_represents⟩
  · exact ⟨rfl, rfl, rfl, rfl, rfl, rfl, rfl, SegmentTree.empty_represents⟩

theorem act_taskDone (htasks : e.tasks = [[]]) (hmain : e.main.notifyFinished = e.main) :
    act e f (.taskDone 0) = some ({ e with tasks := [] }, f) := by
  rw [act, htasks]
  dsimp only [Endpoint.notifyFinished]
  rw [hmain]
  rfl

/-! ### A message and its acknowledgement -/

/-- **A message is sent** and submitted. -/
theorem Sending.send (h : Sending e c n acked [] .top) (hn : n < c.maxMsgs) (f : Endpoint) :
    ∃ e', Leads (e, f) (e', f) ∧
      Sending e' c (n + 1) acked [[.mono (wireKey (n + 1)) []]] (.throttle (n + 1) false) ∧
      e'.receiver = e.receiver := by
  have hlt := c.maxMsgs_lt
  have hkey : (numbered (n + 1)).key ∉ e.sender.msgs.map Msg.key := by
    rw [h.msgs, List.map_map]
    intro hmem
    obtain ⟨j, hj, heq⟩ := List.mem_map.mp hmem
    have hj' := List.mem_range.mp hj
    have hinj := toDecimal_inj (a := j + 1) (b := n + 1) (by omega) (by omega) heq
    omega
  have htest : (numbered (n + 1)).key ≠ e.sender.testKey := by
    intro heq
    have hmem : (0x63 : Byte) ∈ toDecimal (n + 1) := by
      have hmem : (0x63 : Byte) ∈ e.sender.testKey := List.mem_append_left _ List.mem_cons_self
      rwa [← heq] at hmem
    exact absurd (mem_toDecimal hmem).2 (by decide)
  have hmax : e.sender.msgs.length < e.config.maxMsgs := by rw [h.length_msgs, h.config]; exact hn
  have hcond : e.main = .running ∧ (numbered (n + 1)).key ∉ e.sender.msgs.map Msg.key ∧
      (numbered (n + 1)).key ≠ e.sender.testKey ∧ e.sender.msgs.length < e.config.maxMsgs :=
    ⟨h.running, hkey, htest, hmax⟩
  have hlen : e.sender.msgs.length + 2 < 2 ^ 64 := by rw [h.length_msgs]; omega
  have hsend : act e f (.send (numbered (n + 1))) =
      some (e.send (numbered (n + 1)) hkey hlen, f) := dif_pos hcond
  have hentry : (e.send (numbered (n + 1)) hkey hlen).queue =
      [(wireKey (n + 1), [], n + 1)] := by
    have hdis : ¬e.sender.disableMsgSeqId = true := by rw [h.seqIds]; decide
    dsimp only [Endpoint.send]
    rw [h.queue, h.length_msgs, Sender.channelKey, Sender.seqId, if_neg hdis, if_neg hdis]
    rfl
  have hpc : (e.send (numbered (n + 1)) hkey hlen).sendThread = .top :=
    congrArg SendThreadPc.notifyQueue h.sendThread
  have htop : act (e.send (numbered (n + 1)) hkey hlen) f .sendThread =
      some ({ e.send (numbered (n + 1)) hkey hlen with sendThread := .pop }, f) := by
    have hstopped : (e.send (numbered (n + 1)) hkey hlen).sendThreadStopped = false := h.stopped
    rw [act, Endpoint.sendThreadStep, hpc]
    dsimp only
    rw [hstopped]
    rfl
  have hpop : act { e.send (numbered (n + 1)) hkey hlen with sendThread := .pop } f .sendThread =
      some ({ (e.send (numbered (n + 1)) hkey hlen).submit (wireKey (n + 1)) [] with
        queue := []
        sendThread := .throttle (n + 1) false }, f) := by
    dsimp only
    rw [hentry]
    rfl
  refine ⟨_, ((Leads.fst hsend).trans (Leads.fst htop)).trans (Leads.fst hpop), ?_, rfl⟩
  refine { h with msgs := ?_, queue := rfl, tasks := ?_, sendThread := rfl }
  · have hmsgs : (e.send (numbered (n + 1)) hkey hlen).sender.msgs =
        e.sender.msgs ++ [numbered (n + 1)] := rfl
    dsimp only [Endpoint.submit]
    rw [hmsgs, h.msgs, List.range_succ, List.map_append]
    rfl
  · have htasks : (e.send (numbered (n + 1)) hkey hlen).tasks = [] := h.tasks
    dsimp only [Endpoint.submit]
    rw [htasks, sendImpl]
    rfl

theorem insert_succ_Icc (n : ℕ) : insert (n + 1) (Finset.Icc 1 n) = Finset.Icc 1 (n + 1) := by
  ext x
  rw [Finset.mem_insert, Finset.mem_Icc, Finset.mem_Icc]
  omega

theorem callSeq_wireKey {j : ℕ} (hj : j < 2 ^ 64) :
    ¬(wireKey j = kAckKey ∨ wireKey j = kFinKey) ∧
      splitChannelKey (wireKey j) = .ok (toDecimal j, j) :=
  ⟨buildChannelKey_ne _ _,
    splitChannelKey_buildChannelKey (find_toDecimal j) hj⟩

/-- **The message arrives** and is acknowledged. -/
theorem Answering.receive (h : Answering f d n []) (hn : n + 2 < 2 ^ 64) :
    Answering (f.receive (.mono (wireKey (n + 1)) [])) d (n + 1)
      [sendImpl d.bytesPerChunk kAckKey (toDecimal (n + 1))] := by
  obtain ⟨hkey, hsplit⟩ := callSeq_wireKey (j := n + 1) (by omega)
  obtain ⟨hack, hfin⟩ := not_or.mp hkey
  have hcard : (Finset.Icc 1 n).card + 1 < 2 ^ 64 := by rw [Nat.card_Icc]; omega
  obtain ⟨hnew, hrep⟩ := SegmentTree.insert_eq h.ids (by omega : n + 1 + 1 < 2 ^ 64) fun _ => hcard
  have hnot : n + 1 ∉ Finset.Icc 1 n := by rw [Finset.mem_Icc]; omega
  rw [decide_eq_true hnot] at hnew
  rw [insert_succ_Icc] at hrep
  have hmessage : f.receiver.channel.onMessage (wireKey (n + 1)) [] =
      ⟨{ f.receiver.channel with
          receivedMsgIds := (f.receiver.channel.receivedMsgIds.insert (n + 1)).2 },
        [n + 1], some .msgDb, none⟩ := by
    rw [Channel.onMessage, if_neg hack, if_neg hfin, Channel.onNormalMessage, hsplit]
    dsimp only
    rw [hnew, Channel.acceptMessage, if_pos h.waiting]
    rfl
  rw [Endpoint.receive, Endpoint.apply_eq]
  have hstep : (f.receiver.step (.request (.mono (wireKey (n + 1)) []))).acks = [n + 1] ∧
      (f.receiver.step (.request (.mono (wireKey (n + 1)) []))).notified = some .msgDb ∧
      (f.receiver.step (.request (.mono (wireKey (n + 1)) []))).state.inbox = f.receiver.inbox ∧
      (f.receiver.step (.request (.mono (wireKey (n + 1)) []))).state.channel =
        { f.receiver.channel with
          receivedMsgIds := (f.receiver.channel.receivedMsgIds.insert (n + 1)).2 } := by
    rw [Receiver.step]
    dsimp only [Inbox.onRequest, pure, Except.pure, Receiver.call]
    rw [List.map_nil, hmessage]
    exact ⟨rfl, rfl, rfl, rfl⟩
  obtain ⟨hacks, hnotified, hinbox, hchannel⟩ := hstep
  refine ⟨h.bytesPerChunk, h.queue, ?_, ?_, ?_, ?_, ?_, ?_⟩ <;> dsimp only
  · rw [h.tasks, hacks, h.bytesPerChunk]
    rfl
  · rw [hnotified, h.finishing]
    rfl
  · exact h.handlers
  · rw [hchannel]
    exact h.stored
  · rw [hchannel]
    exact h.waiting
  · rw [hchannel]
    exact hrep

/-- **The message is delivered.** -/
theorem Sending.deliver
    (h : Sending e c (n + 1) acked [[.mono (wireKey (n + 1)) []]] (.throttle (n + 1) false))
    (hf : Answering f d n []) (hn : n + 2 < 2 ^ 64) :
    ∃ e' f', Leads (e, f) (e', f') ∧
      Sending e' c (n + 1) acked [] (.throttle (n + 1) false) ∧
      Answering f' d (n + 1) [sendImpl d.bytesPerChunk kAckKey (toDecimal (n + 1))] ∧
      e'.receiver = e.receiver := by
  have hdeliver : act e f (.deliver 0 0) = some ({ e with tasks := [[]] },
      f.receive (.mono (wireKey (n + 1)) [])) := by
    rw [act, h.tasks]
    rfl
  have hdone : act { e with tasks := [[]] } (f.receive (.mono (wireKey (n + 1)) [])) (.taskDone 0) =
      some ({ e with tasks := [] }, f.receive (.mono (wireKey (n + 1)) [])) := by
    refine act_taskDone rfl ?_
    rw [h.running]
    rfl
  exact ⟨_, _, (Leads.fst hdeliver).trans (Leads.fst hdone), { h with tasks := rfl },
    hf.receive hn, rfl⟩

/-- The side after an acknowledgement was passed on and no handler is left. -/
def acknowledged (e : Endpoint) (values : ChunkedValues) (delivered : List Request) (a : ℕ) :
    Endpoint :=
  e.apply (Receiver.call { e.receiver with
    inbox := ⟨values, []⟩
    history := { e.receiver.history with delivered := delivered } } kAckKey
      ((toDecimal a).map some))

variable {q a : ℕ} {values : ChunkedValues}

theorem Sending.ack (h : Sending e c n acked tasks (.throttle q false)) (ha : a + 1 < 2 ^ 64)
    (hcard : acked.card + 1 < 2 ^ 64) (hvalues : values kAckKey = none) (delivered : List Request) :
    Sending (acknowledged e values delivered a) c n (insert a acked) tasks (.throttle q false) ∧
      (acknowledged e values delivered a).receiver.history.delivered = delivered := by
  have hack := e.receiver.channel.onMessage_ack (a := a) (by omega)
  obtain ⟨-, hrep⟩ := SegmentTree.insert_eq h.acks ha fun _ => hcard
  rw [acknowledged, Endpoint.apply_eq]
  dsimp only [Receiver.call]
  rw [hack]
  refine ⟨⟨h.config, h.seqIds, h.msgs, h.queue, ?_, ?_, ?_, h.stopped, h.acking, hvalues, rfl,
    h.stored, hrep⟩, rfl⟩ <;> dsimp only
  · rw [List.map_nil, List.append_nil]
    exact h.tasks
  · rw [h.sendThread]
    split <;> rfl
  · rw [h.running]
    split <;> rfl

/-- A chunk of an acknowledgement. -/
abbrev ackChunk (B a i : ℕ) : Request := .chunked (packChunk B kAckKey (toDecimal a) i)

/-- The side with another inbox. -/
def withInbox (e : Endpoint) (values : ChunkedValues) (handlers : List (Str × Memory))
    (delivered : List Request) : Endpoint :=
  { e with receiver := { e.receiver with
      inbox := ⟨values, handlers⟩
      history := { e.receiver.history with delivered := delivered } } }

theorem Sending.eq_withInbox (h : Sending e c n acked tasks pc) :
    e = withInbox e e.receiver.inbox.chunkedValues [] e.receiver.history.delivered := by
  rw [← h.handlers]
  rfl

theorem receive_chunk {values' : ChunkedValues} {r : ChunkRequest} {message : Option Memory}
    (hr : onChunkedMessage true values r = .ok (values', message)) (delivered : List Request) :
    (withInbox e values [] delivered).receive (.chunked r) =
      withInbox e values' (message.toList.map fun m => (r.key, m)) (.chunked r :: delivered) := by
  have hb : (withInbox e values [] delivered).receiver.inbox = ⟨values, []⟩ := rfl
  rw [Endpoint.receive, Receiver.step, hb, Inbox.onRequest, hr]
  rfl

theorem act_deliver {requests : List Request} {r : Request} {j : ℕ} (htasks : f.tasks = [requests])
    (hj : requests[j]? = some r) :
    act f e (.deliver 0 j) = some ({ f with tasks := [requests.eraseIdx j] }, e.receive r) := by
  rw [act, htasks]
  dsimp only [List.getElem?_cons_zero]
  rw [hj]
  rfl

theorem Leads.chunk {values' : ChunkedValues} {r : ChunkRequest} {message : Option Memory}
    {requests : List Request} {j : ℕ} (htasks : f.tasks = [requests])
    (hj : requests[j]? = some (.chunked r))
    (hr : onChunkedMessage true values r = .ok (values', message)) (e : Endpoint)
    (delivered : List Request) :
    Leads (withInbox e values [] delivered, f)
      (withInbox e values' (message.toList.map fun m => (r.key, m)) (.chunked r :: delivered),
        { f with tasks := [requests.eraseIdx j] }) := by
  have hact := act_deliver (e := withInbox e values [] delivered) htasks hj
  rw [receive_chunk hr] at hact
  exact .snd hact

theorem act_passOn {delivered : List Request} :
    act (withInbox e values [(kAckKey, (toDecimal a).map some)] delivered) f (.passOn 0) =
      some (acknowledged e values delivered a, f) := by
  rfl

variable {m : ℕ}

theorem Answering.withTasks (h : Answering f d m tasks) (tasks' : List (List Request)) :
    Answering { f with tasks := tasks' } d m tasks' :=
  { h with tasks := rfl }

theorem Answering.done (h : Answering f d m [[]]) (e : Endpoint) :
    Leads (e, f) (e, { f with tasks := [] }) ∧ Answering { f with tasks := [] } d m [] := by
  refine ⟨Leads.snd (act_taskDone h.tasks ?_), h.withTasks []⟩
  rw [h.finishing]
  rfl

/-- **An acknowledgement in one piece.** -/
theorem Sending.ackMono (h : Sending e c n acked [] (.throttle q false))
    (hf : Answering f d m [[.mono kAckKey (toDecimal a)]]) (ha : a + 1 < 2 ^ 64)
    (hcard : acked.card + 1 < 2 ^ 64) :
    ∃ e' f', Leads (e, f) (e', f') ∧ Sending e' c n (insert a acked) [] (.throttle q false) ∧
      Answering f' d m [] := by
  have hdeliver : act f e (.deliver 0 0) = some ({ f with tasks := [[]] },
      acknowledged e e.receiver.inbox.chunkedValues
        (.mono kAckKey (toDecimal a) :: e.receiver.history.delivered) a) := by
    have hact := act_deliver (j := 0) (e := e) hf.tasks rfl
    rw [h.eq_withInbox] at hact
    rw [h.eq_withInbox]
    exact hact
  obtain ⟨hdone, hf'⟩ := (hf.withTasks [[]]).done (acknowledged e e.receiver.inbox.chunkedValues
    (.mono kAckKey (toDecimal a) :: e.receiver.history.delivered) a)
  exact ⟨_, _, (Leads.snd hdeliver).trans hdone, (h.ack ha hcard h.values _).1, hf'⟩

variable {B : ℕ}

/-- **An acknowledgement in two chunks.** -/
theorem Sending.ackTwo (h : Sending e c n acked [] (.throttle q false))
    (hf : Answering f d m [[ackChunk B a 0, ackChunk B a 1]]) (hB : 1 ≤ B)
    (hlong : B < (toDecimal a).length) (htwo : (toDecimal a).length ≤ 2 * B) (ha : a + 1 < 2 ^ 64)
    (hcard : acked.card + 1 < 2 ^ 64) :
    ∃ e' f', Leads (e, f) (e', f') ∧ Sending e' c n (insert a acked) [] (.throttle q false) ∧
      Answering f' d m [] ∧ ackChunk B a 1 ∈ e'.receiver.history.delivered := by
  have hlen := length_toDecimal_lt (a := a) (by omega)
  obtain ⟨w, hfirst, hholds, hhas⟩ := onChunkedMessage_first hB hlong htwo hlen h.values
    (by decide : 0 < 2)
  have hsome := Function.update_self kAckKey (some w) e.receiver.inbox.chunkedValues
  have hsecond := onChunkedMessage_second hB hlong htwo hlen hsome hholds ((hhas 0).mpr rfl)
    (by decide) (by decide : 1 < 2) (by decide)
  have hdeliver := Leads.chunk (j := 0) hf.tasks rfl hfirst e e.receiver.history.delivered
  rw [← h.eq_withInbox] at hdeliver
  have hdeliver' := Leads.chunk (j := 0) (hf.withTasks [[ackChunk B a 1]]).tasks rfl hsecond e
    (ackChunk B a 0 :: e.receiver.history.delivered)
  have hnone := Function.update_self kAckKey none
    (Function.update e.receiver.inbox.chunkedValues kAckKey (some w))
  obtain ⟨hsending, hdelivered⟩ := h.ack ha hcard hnone
    (ackChunk B a 1 :: ackChunk B a 0 :: e.receiver.history.delivered)
  obtain ⟨hdone, hf'⟩ := (hf.withTasks [[]]).done _
  refine ⟨_, _, ((hdeliver.trans hdeliver').trans (Leads.fst act_passOn)).trans hdone, hsending,
    hf', ?_⟩
  rw [hdelivered]
  exact List.mem_cons_self

/-! ### Exchanges -/

theorem sendImpl_two {v : List Byte} {k : Str} (hB : 1 ≤ B) (hv : B < v.length)
    (htwo : v.length ≤ 2 * B) (hlen : v.length < 2 ^ 63) :
    sendImpl B k v = [.chunked (packChunk B k v 0), .chunked (packChunk B k v 1)] := by
  rw [sendImpl, if_pos hv, sendChunked, numChunks_eq_two hB hv htwo hlen]
  rfl

/-- **One exchange.** -/
theorem Sending.exchange (h : Sending e c n (Finset.Icc 1 n) [] .top) (hf : Answering f d n [])
    (hn : n < c.maxMsgs) (hle : n + 1 ≤ 10 ^ d.bytesPerChunk) :
    ∃ e' f', Leads (e, f) (e', f') ∧
      Sending e' c (n + 1) (Finset.Icc 1 (n + 1)) [] (.throttle (n + 1) false) ∧
      Answering f' d (n + 1) [] ∧
      (n + 1 = 10 ^ d.bytesPerChunk →
        ackChunk d.bytesPerChunk (n + 1) 1 ∈ e'.receiver.history.delivered) := by
  have hlt := c.maxMsgs_lt
  have hB := d.bytesPerChunk_pos
  have hcard : (Finset.Icc 1 n).card + 1 < 2 ^ 64 := by rw [Nat.card_Icc]; omega
  obtain ⟨e₁, hsend, h₁, -⟩ := h.send hn f
  obtain ⟨e₂, f₂, hdeliver, h₂, hf₂, -⟩ := h₁.deliver hf (by omega)
  rcases Nat.lt_or_ge (n + 1) (10 ^ d.bytesPerChunk) with hshort | hge
  · -- the acknowledgement fits into one request
    have hlen := Endpoint.length_toDecimal_le hshort hB
    rw [sendImpl, if_neg (by omega)] at hf₂
    obtain ⟨e₃, f₃, hack, h₃, hf₃⟩ := h₂.ackMono hf₂ (by omega) hcard
    rw [insert_succ_Icc] at h₃
    exact ⟨e₃, f₃, (hsend.trans hdeliver).trans hack, h₃, hf₃, fun heq => by omega⟩
  · have heq : n + 1 = 10 ^ d.bytesPerChunk := le_antisymm hle hge
    have hlen : (toDecimal (n + 1)).length = d.bytesPerChunk + 1 := by
      rw [heq, length_toDecimal_pow]
    rw [sendImpl_two hB (by omega) (by omega) (length_toDecimal_lt (by omega))] at hf₂
    obtain ⟨e₃, f₃, hack, h₃, hf₃, hdelivered⟩ :=
      h₂.ackTwo hf₂ hB (by omega) (by omega) (by omega) hcard
    rw [insert_succ_Icc] at h₃
    exact ⟨e₃, f₃, (hsend.trans hdeliver).trans hack, h₃, hf₃, fun _ => hdelivered⟩

/-- The loop of `ThrottleWindowWait` ends, if the sum does not wrap around. -/
theorem Sending.pass (h : Sending e c n (Finset.Icc 1 n) [] (.throttle n false))
    (hwindow : c.throttleWindowSize = 0 ∨ c.throttleWindowSize + n < 2 ^ 64) (f : Endpoint) :
    Leads (e, f) ({ e with sendThread := .top }, f) ∧
      Sending { e with sendThread := .top } c n (Finset.Icc 1 n) [] .top := by
  have hthrottled : ¬e.throttled n = true := by
    rw [Endpoint.throttled, Bool.and_eq_true, decide_eq_true_iff, decide_eq_true_iff, h.config,
      h.acks.count_eq, Nat.card_Icc]
    rintro ⟨hne, hle⟩
    omega
  have hact : act e f .sendThread = some ({ e with sendThread := .top }, f) := by
    rw [act, Endpoint.sendThreadStep, h.sendThread]
    dsimp only
    rw [if_neg hthrottled]
    rfl
  exact ⟨.fst hact, { h with sendThread := rfl }⟩

/-- **A run of exchanges**, by induction on their number. -/
theorem exchanges (c d : ChannelConfig) {n : ℕ} (hn : n ≤ c.maxMsgs)
    (hle : n ≤ 10 ^ d.bytesPerChunk)
    (hwindow : c.throttleWindowSize = 0 ∨ c.throttleWindowSize + n < 2 ^ 64) :
    ∃ e f, Leads (.start c, .start d) (e, f) ∧ Sending e c n (Finset.Icc 1 n) [] .top ∧
      Answering f d n [] ∧
      (n = 10 ^ d.bytesPerChunk →
        ackChunk d.bytesPerChunk n 1 ∈ e.receiver.history.delivered) := by
  induction n with
  | zero =>
    obtain ⟨f, hrun, hsending, hanswering⟩ := start_runs c d
    refine ⟨_, f, hrun, hsending, hanswering, fun heq => ?_⟩
    have hpos : 0 < 10 ^ d.bytesPerChunk := Nat.pow_pos (by decide)
    omega
  | succ n ih =>
    obtain ⟨e, f, hrun, hsending, hanswering, -⟩ := ih (by omega) (by omega)
      (hwindow.imp_right fun h => by omega)
    obtain ⟨e', f', hrun', hsending', hanswering', hdelivered⟩ :=
      hsending.exchange hanswering (by omega) hle
    obtain ⟨hpass, hsending''⟩ := hsending'.pass hwindow f'
    exact ⟨_, f', (hrun.trans hrun').trans hpass, hsending'', hanswering', hdelivered⟩

/-! ### The ends of the runs -/

/-- A state in which the first side is lost. -/
def EndsLost (c d : ChannelConfig) : Prop :=
  ∃ e f, Leads (.start c, .start d) (e, f) ∧ e.Quiet ∧ f.Quiet ∧ e.Lost

theorem Answering.quiet (h : Answering f d m []) : f.Quiet := by
  refine ⟨?_, h.queue, ?_, ?_, h.stored⟩
  · rw [h.finishing]
    decide
  · rw [h.tasks]
    nofun
  · rw [h.handlers]
    nofun

theorem Sending.finish (h : Sending e c n acked [] pc) (f : Endpoint) :
    Leads (e, f) ({ e with main := .stop }, f) ∧ Endpoint.Quiet { e with main := .stop } := by
  refine ⟨.fst (a := .finish) (if_pos ⟨h.running, h.acking⟩), ⟨le_rfl, h.queue, ?_, ?_, h.stored⟩⟩
  · rw [h.tasks]
    nofun
  · rw [h.handlers]
    nofun

/-- **The sum in `ThrottleWindowWait` wraps around.** -/
theorem endsLost_throttle (c d : ChannelConfig) (hwindow : c.throttleWindowSize ≠ 0)
    (hmax : 2 ^ 64 ≤ c.throttleWindowSize + c.maxMsgs)
    (hle : 2 ^ 64 ≤ c.throttleWindowSize + 10 ^ d.bytesPerChunk) : EndsLost c d := by
  have hlt := c.throttleWindowSize_lt
  obtain ⟨n, hn⟩ : ∃ n, c.throttleWindowSize + (n + 1) = 2 ^ 64 :=
    ⟨2 ^ 64 - c.throttleWindowSize - 1, by omega⟩
  obtain ⟨e, f, hrun, hsending, hanswering, -⟩ :=
    exchanges c d (n := n) (by omega) (by omega) (.inr (by omega))
  obtain ⟨e', f', hrun', hsending', hanswering', -⟩ :=
    hsending.exchange hanswering (by omega) (by omega)
  obtain ⟨hfinish, hquiet⟩ := hsending'.finish f'
  refine ⟨_, f', (hrun.trans hrun').trans hfinish, hquiet, hanswering'.quiet,
    .inr ⟨(by decide : MainPc.stop.phase ≤ 7), n + 1, false, hsending'.sendThread, ?_⟩⟩
  rw [Endpoint.throttled, Bool.and_eq_true, decide_eq_true_iff, decide_eq_true_iff]
  rw [hsending'.config, hsending'.acks.count_eq, Nat.card_Icc, Nat.add_sub_cancel, Nat.add_comm, hn]
  exact ⟨hwindow, Nat.zero_le _⟩

theorem packChunk_toDecimal_succ (hB : 1 ≤ B) (k : Str) :
    packChunk B k (toDecimal (10 ^ B + 1)) 0 = packChunk B k (toDecimal (10 ^ B)) 0 ∧
      (toDecimal (10 ^ B + 1)).length = B + 1 := by
  obtain ⟨b, rfl⟩ : ∃ b, B = b + 1 := ⟨B - 1, by omega⟩
  have hpos : 0 < 10 ^ b := Nat.pow_pos (by decide)
  have hlen := length_toDecimal_pow b
  have hzero : toDecimal (10 ^ (b + 1)) = toDecimal (10 ^ b) ++ [digitChar 0] := by
    rw [← toDecimal_ten_mul_add hpos (by decide), pow_succ, Nat.mul_comm, Nat.add_zero]
  have hone : toDecimal (10 ^ (b + 1) + 1) = toDecimal (10 ^ b) ++ [digitChar 1] := by
    rw [← toDecimal_ten_mul_add hpos (by decide), pow_succ, Nat.mul_comm]
  rw [hzero, hone, List.length_append, hlen]
  refine ⟨?_, rfl⟩
  have htake : ∀ x : Byte, (toDecimal (10 ^ b) ++ [x]).take (b + 1) = toDecimal (10 ^ b) := by
    intro x
    rw [← hlen, List.take_left]
  simp only [packChunk, Nat.zero_mul, List.drop_zero, List.length_append, hlen,
    List.length_singleton, Nat.sub_zero, Nat.min_eq_left (Nat.le_succ (b + 1)), htake]

/-- **An acknowledgement is lost** among the chunks of another one. -/
theorem endsLost_ack (c d : ChannelConfig) (hmax : 10 ^ d.bytesPerChunk < c.maxMsgs)
    (hwindow : c.throttleWindowSize = 0 ∨
      c.throttleWindowSize + 10 ^ d.bytesPerChunk < 2 ^ 64) : EndsLost c d := by
  have hB := d.bytesPerChunk_pos
  have hlt := c.maxMsgs_lt
  have hpos : 0 < 10 ^ d.bytesPerChunk := Nat.pow_pos (by decide)
  obtain ⟨hfirst, hlen'⟩ := packChunk_toDecimal_succ hB kAckKey
  have hlen := length_toDecimal_pow d.bytesPerChunk
  have hB' := length_toDecimal_lt (show 10 ^ d.bytesPerChunk < 2 ^ 64 by omega)
  obtain ⟨e, f, hrun, h, hf, hdelivered⟩ := exchanges c d hmax.le le_rfl hwindow
  obtain ⟨e₁, hsend, h₁, hrx₁⟩ := h.send hmax f
  obtain ⟨e₂, f₂, hdeliver, h₂, hf₂, hrx₂⟩ := h₁.deliver hf (by omega)
  rw [sendImpl_two hB (by omega) (by omega) (by omega)] at hf₂
  generalize hK : 10 ^ d.bytesPerChunk = K at *
  generalize d.bytesPerChunk = B at *
  -- the second chunk of the first acknowledgement comes again
  obtain ⟨w, hagain, hholds, hhas⟩ := onChunkedMessage_first hB (v := toDecimal K) (by omega)
    (by omega) (by omega) h₂.values (by decide : 1 < 2)
  have hsame : (toDecimal (K + 1)).length = (toDecimal K).length := hlen'.trans hlen.symm
  have hsome := Function.update_self kAckKey (some w) e₂.receiver.inbox.chunkedValues
  have hother := onChunkedMessage_other hB (by omega) (by omega) (by omega) hsome hholds hhas
    (by decide) hsame
  have hfull := onChunkedMessage_second hB (by omega) (by omega) (by omega) hsome hholds
    ((hhas 1).mpr rfl) (by decide) (by decide : 0 < 2) (by decide)
  rw [← hfirst] at hfull
  have hredeliver : Leads (e₂, f₂)
      (withInbox e₂ (Function.update e₂.receiver.inbox.chunkedValues kAckKey (some w)) []
        (ackChunk B K 1 :: e₂.receiver.history.delivered), f₂) := by
    have hmem : ackChunk B K 1 ∈ e₂.receiver.history.delivered := by
      rw [hrx₂, hrx₁]
      exact hdelivered rfl
    have hact : act f₂ e₂ (.redeliver (ackChunk B K 1)) =
        some (f₂, e₂.receive (ackChunk B K 1)) := if_pos hmem
    rw [h₂.eq_withInbox, receive_chunk hagain, ← h₂.eq_withInbox] at hact
    exact .snd hact
  -- its own second chunk is dropped
  have hdrop := Leads.chunk (j := 1) hf₂.tasks rfl hother e₂
    (ackChunk B K 1 :: e₂.receiver.history.delivered)
  -- and the two together are the first acknowledgement
  have hdeliver' := Leads.chunk (j := 0) (hf₂.withTasks [[ackChunk B (K + 1) 0]]).tasks rfl hfull e₂
    (ackChunk B (K + 1) 1 :: ackChunk B K 1 :: e₂.receiver.history.delivered)
  have hcard : (Finset.Icc 1 K).card + 1 < 2 ^ 64 := by rw [Nat.card_Icc]; omega
  have hnone := Function.update_self kAckKey none
    (Function.update e₂.receiver.inbox.chunkedValues kAckKey (some w))
  obtain ⟨hsending, -⟩ := h₂.ack (a := K) (by omega) hcard hnone
    (ackChunk B (K + 1) 0 :: ackChunk B (K + 1) 1 :: ackChunk B K 1 ::
      e₂.receiver.history.delivered)
  rw [Finset.insert_eq_of_mem (Finset.mem_Icc.mpr ⟨hpos, le_rfl⟩)] at hsending
  obtain ⟨hdone, hf'⟩ := (hf₂.withTasks [[]]).done (acknowledged e₂ _ _ K)
  obtain ⟨hfinish, hquiet⟩ := hsending.finish { f₂ with tasks := [] }
  have hchunks := ((hredeliver.trans hdrop).trans hdeliver').trans (Leads.fst act_passOn)
  have hall := ((((hrun.trans hsend).trans hdeliver).trans hchunks).trans hdone).trans hfinish
  refine ⟨_, _, hall, hquiet, hf'.quiet, .inl ⟨(by decide : MainPc.stop.phase < 10), ?_⟩⟩
  have hcontains := SegmentTree.contains_eq hsending.acks (K + 1)
  rw [Endpoint.AllAcked, hsending.length_msgs, Endpoint.covered, hcontains]
  simp

/-- **The bounds are needed.** -/
theorem endsLost_of_not_fits {c d : ChannelConfig} (h : ¬c.Fits d) : EndsLost c d := by
  rw [ChannelConfig.Fits, not_and_or, not_or, Nat.not_le] at h
  by_cases hwrap : c.throttleWindowSize ≠ 0 ∧ 2 ^ 64 ≤ c.throttleWindowSize + c.maxMsgs ∧
      2 ^ 64 ≤ c.throttleWindowSize + 10 ^ d.bytesPerChunk
  · exact endsLost_throttle c d hwrap.1 hwrap.2.1 hwrap.2.2
  · have hmax : 10 ^ d.bytesPerChunk < c.maxMsgs := by
      rcases h with h | hw
      · exact h
      · omega
    refine endsLost_ack c d hmax ?_
    by_cases hzero : c.throttleWindowSize = 0
    · exact .inl hzero
    · refine .inr ?_
      rw [not_and, not_and] at hwrap
      by_contra hge
      exact hwrap hzero (by omega) (by omega)

theorem not_graceful_of_endsLost {c : Config}
    (h : EndsLost c.left c.right ∨ EndsLost c.right c.left) : ¬c.Graceful := by
  rcases h with ⟨e, f, hrun, he, hf, hlost⟩ | ⟨e, f, hrun, he, hf, hlost⟩
  · exact not_graceful_of_lost (Leads.reachable.1 hrun) he hf (.inl hlost)
  · exact not_graceful_of_lost (Leads.reachable.2 hrun) hf he (.inr hlost)

end Shutdown

end Yacl.Link
