import Yacl.Link.ChunkedTransfer
import Yacl.Utils.SegmentTree

/-!
# The receiving half of a channel

`OnMessage`, `OnNormalMessage`, `Recv` and `StopReceivingAndAckUnreadMsgs`, from
`yacl/link/transport/channel.cc`. Each of them is one critical section of `msg_mutex_`, so a run of
a channel is a sequence of their calls, mixed with those of the inbox (`Receiver.step`). A call
returns the new state and what it does to the rest of the channel: the acknowledgements that
`SendAck` submits, the condition variable that is notified, and the exception that is thrown. That
the thread of an acknowledgement cannot be started is not modelled, and neither are the timeout of
`Recv` and `Abort`.

`Receiver.history` is not part of the program. It records what has happened.
-/

open Bytes
open Yacl.Utils (SegmentTree)

namespace Yacl.Link

/-- The condition variables of `msg_mutex_`. -/
inductive Cond where
  /-- `msg_db_cond_`. -/
  | msgDb
  /-- `ack_fin_cond_`. -/
  | ackFin
deriving DecidableEq

/-- What `msg_mutex_` guards: the messages that no one has taken yet, the numbers that came and that
were acknowledged, and what is known about the end. -/
structure Channel where
  /-- `recv_msgs_`: keys with their values and sequence numbers. -/
  recvMsgs : List (Str × Memory × ℕ)
  /-- `received_msg_ids_`. -/
  receivedMsgIds : SegmentTree
  /-- `received_ack_ids_`. -/
  receivedAckIds : SegmentTree
  /-- `received_fin_`. -/
  receivedFin : Bool
  /-- `peer_sent_msg_count_`. -/
  peerSentMsgCount : ℕ
  /-- `waiting_finish_`. -/
  waitingFinish : Bool

/-- The effect of a call. -/
structure Outcome (σ : Type) where
  state : σ
  /-- The sequence numbers that are acknowledged. -/
  acks : List ℕ
  notified : Option Cond
  exception : Option Exception

/-- A call without an effect on anything but the state. -/
def Outcome.quiet {σ : Type} (s : σ) : Outcome σ := ⟨s, [], none, none⟩

namespace Channel

/-- A new channel. -/
def empty : Channel := ⟨[], .empty, .empty, false, 0, false⟩

/-- `SendAck`: the number 0 is not acknowledged. -/
def sendAck (seqId : ℕ) : List ℕ := if seqId > 0 then [seqId] else []

/-- The bytes of a buffer; reading one that was never written is undefined behaviour. -/
def readMemory (m : Memory) : Except Exception (List Byte) :=
  m.mapM fun
    | some b => pure b
    | none => throw .undefinedBehaviour

/-- A string in the text of an exception. -/
def text (s : Str) : String := String.ofList (s.map fun b => Char.ofNat b.toNat)

/-- The rest of `OnNormalMessage` for a message that is not a duplicate. -/
def acceptMessage (c : Channel) (msgKey : Str) (v : Memory) (seqId : ℕ) : Outcome Channel :=
  if c.waitingFinish then ⟨c, sendAck seqId, some .msgDb, none⟩
  else match c.recvMsgs.lookup msgKey with
    | none => ⟨{ c with recvMsgs := (msgKey, v, seqId) :: c.recvMsgs }, [], some .msgDb, none⟩
    | some (_, oldSeqId) =>
      if seqId > 0 then
        let key := text msgKey
        ⟨c, [], none, some (.runtimeError ("For developer: BUG! PLS do not use same key for " ++
          s!"multiple msg, Duplicate key {key} with new seq_id {seqId}, old seq_id {oldSeqId}."))⟩
      else ⟨c, [], some .msgDb, none⟩

/-- `OnNormalMessage`. -/
def onNormalMessage (c : Channel) (key : Str) (v : Memory) : Outcome Channel :=
  match splitChannelKey key with
  | .error e => ⟨c, [], none, some e⟩
  | .ok (msgKey, seqId) =>
    if seqId > 0 then
      let (new, ids) := c.receivedMsgIds.insert seqId
      let c := { c with receivedMsgIds := ids }
      if new then c.acceptMessage msgKey v seqId else .quiet c
    else c.acceptMessage msgKey v seqId

/-- `OnMessage` for an acknowledgement. -/
def onAck (c : Channel) (v : Memory) : Outcome Channel :=
  match readMemory v >>= viewToSizeT with
  | .error e => ⟨c, [], none, some e⟩
  | .ok seqId =>
    let (new, ids) := c.receivedAckIds.insert seqId
    ⟨{ c with receivedAckIds := ids }, [], if new then some .ackFin else none, none⟩

/-- `OnMessage` for the last message of the peer. -/
def onFin (c : Channel) (v : Memory) : Outcome Channel :=
  if c.receivedFin then .quiet c
  else
    let c := { c with receivedFin := true }
    match readMemory v >>= viewToSizeT with
    | .error e => ⟨c, [], none, some e⟩
    | .ok count => ⟨{ c with peerSentMsgCount := count }, [], some .ackFin, none⟩

/-- `OnMessage`. -/
def onMessage (c : Channel) (key : Str) (v : Memory) : Outcome Channel :=
  if key = kAckKey then c.onAck v
  else if key = kFinKey then c.onFin v
  else c.onNormalMessage key v

/-- The lambda `stop_waiting` of `Recv`: the value and its number, if the key is there. -/
def take (c : Channel) (msgKey : Str) : Option ((Memory × ℕ) × Channel) :=
  (c.recvMsgs.lookup msgKey).map fun entry =>
    (entry, { c with recvMsgs := c.recvMsgs.filter fun e => e.1 ≠ msgKey })

/-- `StopReceivingAndAckUnreadMsgs`. -/
def stopReceivingAndAckUnreadMsgs (c : Channel) : Outcome Channel :=
  ⟨{ c with waitingFinish := true, recvMsgs := [] },
    c.recvMsgs.flatMap fun e => sendAck e.2.2, none, none⟩

end Channel

/-! ### Runs -/

/-- What has happened so far, the latest first. -/
structure History where
  /-- The requests that came. -/
  delivered : List Request
  /-- The calls of `OnMessage`. -/
  passed : List (Str × Memory)
  /-- The keys of the calls that threw. -/
  thrown : List Str
  /-- What `Recv` returned: the key it was called with, the value and its number. -/
  returned : List (Str × Memory × ℕ)
  /-- The messages that were acknowledged without a `Recv`. -/
  autoAcked : List ℕ

/-- The receiving half of a channel: chunks on their way, the guarded state, and what happened so
far. -/
structure Receiver where
  inbox : Inbox
  channel : Channel
  history : History

/-- What can happen to the receiving half of a channel. -/
inductive Event where
  /-- A request comes: `OnRequest` up to the end of its first critical section. -/
  | request (r : Request)
  /-- A handler thread passes its message on to `OnMessage`. -/
  | passOn (i : ℕ)
  /-- A thread in `Recv` looks for its key. -/
  | recv (msgKey : Str)
  /-- `WaitLinkTaskFinish` starts. -/
  | stop

namespace Receiver

/-- A new channel. -/
def empty : Receiver := ⟨.empty, .empty, ⟨[], [], [], [], []⟩⟩

/-- A call of `OnMessage`. -/
def call (s : Receiver) (key : Str) (v : Memory) : Outcome Receiver :=
  let o := s.channel.onMessage key v
  let h := s.history
  { o with state := { s with
      channel := o.state
      history := { h with
        passed := (key, v) :: h.passed
        thrown := (if o.exception.isSome then [key] else []) ++ h.thrown
        autoAcked := o.acks ++ h.autoAcked } } }

/-- One event. -/
def step (s : Receiver) : Event → Outcome Receiver
  | .request r =>
    let s := { s with history := { s.history with delivered := r :: s.history.delivered } }
    match s.inbox.onRequest r with
    | .error e => ⟨s, [], none, some e⟩
    | .ok (inbox, none) => .quiet { s with inbox := inbox }
    | .ok (inbox, some (key, v)) => call { s with inbox := inbox } key v
  | .passOn i =>
    match s.inbox.handlers[i]? with
    | none => .quiet s
    | some (key, v) =>
      call { s with inbox := { s.inbox with handlers := s.inbox.handlers.eraseIdx i } } key v
  | .recv msgKey =>
    match normalMessageKeyEnforce msgKey with
    | .error e => ⟨s, [], none, some e⟩
    | .ok () => match s.channel.take msgKey with
      | none => .quiet s
      | some ((v, seqId), c) =>
        ⟨{ s with
            channel := c
            history := { s.history with returned := (msgKey, v, seqId) :: s.history.returned } },
          Channel.sendAck seqId, none, none⟩
  | .stop =>
    let o := s.channel.stopReceivingAndAckUnreadMsgs
    { o with state := { s with
        channel := o.state
        history := { s.history with autoAcked := o.acks ++ s.history.autoAcked } } }

/-- A run of a new channel. -/
def run (events : List Event) : Receiver := events.foldl (fun s e => (s.step e).state) empty

end Receiver

/-! ### The ledger of a channel -/

/-- The sequence number of a call of `OnMessage` for a normal message. -/
def callSeq (key : Str) : Option ℕ :=
  if key = kAckKey ∨ key = kFinKey then none else (splitChannelKey key).toOption.map Prod.snd

/-- The sequence numbers of the calls, without 0. -/
def receivedIds (passed : List (Str × Memory)) : Finset ℕ :=
  (passed.filterMap fun c => callSeq c.1).toFinset.filter (0 < ·)

theorem mem_receivedIds {passed : List (Str × Memory)} {q : ℕ} :
    q ∈ receivedIds passed ↔ 0 < q ∧ ∃ c ∈ passed, callSeq c.1 = some q := by
  simp only [receivedIds, Finset.mem_filter, List.mem_toFinset, List.mem_filterMap, and_comm]

theorem mem_receivedIds_cons {passed : List (Str × Memory)} {key : Str} {v : Memory} {q : ℕ} :
    q ∈ receivedIds ((key, v) :: passed) ↔
      0 < q ∧ callSeq key = some q ∨ q ∈ receivedIds passed := by
  simp only [mem_receivedIds, List.mem_cons, exists_eq_or_imp]
  tauto

namespace Channel

/-- **The ledger.** `orig` tells which messages were sent. Every number that came is in exactly one
place: taken out by `Recv` or acknowledged, rejected because its key was in use, or stored. -/
structure Store (c : Channel) (N : ℕ) (orig : Str → Memory → ℕ → Prop)
    (passed : List (Str × Memory)) (taken rejected : List ℕ) : Prop where
  ids : c.receivedMsgIds.Represents (receivedIds passed)
  ids_le : ∀ q ∈ receivedIds passed, q ≤ N
  nodup : (c.recvMsgs.map Prod.fst).Nodup
  entries : ∀ e ∈ c.recvMsgs, orig e.1 e.2.1 e.2.2
  ledger : ∀ q, 0 < q → taken.count q + rejected.count q + (c.recvMsgs.map (·.2.2)).count q =
    if q ∈ receivedIds passed then 1 else 0
  conflict : ∀ q ∈ rejected, 0 < q ∧ ∃ k v v' q', orig k v q ∧ orig k v' q' ∧ q' ≠ q
  finishing : c.waitingFinish → c.recvMsgs = []

variable {c : Channel} {N : ℕ} {orig : Str → Memory → ℕ → Prop} {passed : List (Str × Memory)}
  {taken rejected : List ℕ}

theorem Store.card_lt (h : c.Store N orig passed taken rejected) (hN : N + 1 < 2 ^ 64) :
    (receivedIds passed).card + 1 < 2 ^ 64 := by
  have hsub : receivedIds passed ⊆ Finset.Icc 1 N := by
    intro q hq
    exact Finset.mem_Icc.mpr ⟨(mem_receivedIds.mp hq).1, h.ids_le q hq⟩
  have hcard := Finset.card_le_card hsub
  rw [Nat.card_Icc] at hcard
  omega

variable {l : List (Str × Memory × ℕ)} {k : Str}

theorem lookup_eq_none_iff : l.lookup k = none ↔ k ∉ l.map Prod.fst := by
  rw [List.lookup_eq_none_iff, List.mem_map]
  simp only [bne_iff_ne, not_exists, not_and]
  exact forall₂_congr fun e _ => not_congr eq_comm

theorem mem_of_lookup {e : Memory × ℕ} (h : l.lookup k = some e) : (k, e) ∈ l := by
  obtain ⟨l₁, l₂, rfl, -⟩ := List.lookup_eq_some_iff.mp h
  exact List.mem_append_right _ List.mem_cons_self

theorem count_sendAck {q : ℕ} (hq : 0 < q) (seqId : ℕ) :
    (sendAck seqId).count q = if q = seqId then 1 else 0 := by
  rw [sendAck]
  split
  · rw [List.count_singleton]
    exact if_congr (by rw [beq_iff_eq, eq_comm]) rfl rfl
  · rw [if_neg (by omega)]
    rfl

variable {key : Str} {v : Memory} {seqId : ℕ}

/-- A number comes for the first time, and goes to exactly one of the three places. -/
theorem Store.ledger_cons (h : c.Store N orig passed taken rejected)
    (hcall : callSeq key = some seqId) (hnew : seqId ∉ receivedIds passed) {total : ℕ → ℕ}
    (htotal : ∀ q, 0 < q → total q = taken.count q + rejected.count q +
      (c.recvMsgs.map (·.2.2)).count q + if q = seqId then 1 else 0) :
    ∀ q, 0 < q → total q = if q ∈ receivedIds ((key, v) :: passed) then 1 else 0 := by
  intro q hq
  rw [htotal q hq, h.ledger q hq]
  by_cases hqs : q = seqId
  · subst hqs
    rw [if_neg hnew, if_pos rfl, if_pos (mem_receivedIds_cons.mpr (.inl ⟨hq, hcall⟩))]
  · have hiff : q ∈ receivedIds ((key, v) :: passed) ↔ q ∈ receivedIds passed := by
      rw [mem_receivedIds_cons, hcall, Option.some_inj]
      exact or_iff_right fun hc => hqs hc.2.symm
    rw [if_neg hqs]
    exact (if_congr hiff rfl rfl).symm

theorem Store.mem_receivedIds_of_mem (h : c.Store N orig passed taken rejected) {q : ℕ} (hq : 0 < q)
    (hmem : (k, v, q) ∈ c.recvMsgs) : q ∈ receivedIds passed := by
  by_contra hnot
  have hledger := h.ledger q hq
  rw [if_neg hnot] at hledger
  have hcount : 0 < (c.recvMsgs.map (·.2.2)).count q :=
    List.count_pos_iff.mpr (List.mem_map.mpr ⟨_, hmem, rfl⟩)
  omega

variable {msgKey : Str}

theorem Store.acceptMessage (h : c.Store N orig passed taken rejected)
    (hcall : callSeq key = some seqId) (hle : seqId ≤ N) (horig : orig msgKey v seqId)
    (hnew : seqId ∉ receivedIds passed) {ids : SegmentTree}
    (hids : ids.Represents (receivedIds ((key, v) :: passed))) {o : Outcome Channel}
    (ho : acceptMessage { c with receivedMsgIds := ids } msgKey v seqId = o) :
    o.state.Store N orig ((key, v) :: passed) (o.acks ++ taken)
      ((if o.exception.isSome then [seqId] else []) ++ rejected) := by
  have hids_le : ∀ q ∈ receivedIds ((key, v) :: passed), q ≤ N := by
    intro q hq
    rcases mem_receivedIds_cons.mp hq with ⟨-, hq⟩ | hq
    · rw [hcall] at hq
      exact Option.some_inj.mp hq ▸ hle
    · exact h.ids_le q hq
  rw [Channel.acceptMessage] at ho
  split at ho
  · -- acknowledged at once
    subst ho
    refine ⟨hids, hids_le, h.nodup, h.entries, h.ledger_cons hcall hnew fun q hq => ?_,
      h.conflict, h.finishing⟩
    rw [List.count_append, count_sendAck hq]
    simp only [Option.isSome_none, Bool.false_eq_true, if_false, List.nil_append]
    omega
  · next hwait =>
    split at ho
    · -- stored
      next hnone =>
      subst ho
      refine ⟨hids, hids_le, ?_, ?_, h.ledger_cons hcall hnew fun q hq => ?_, h.conflict, ?_⟩
      · exact List.nodup_cons.mpr ⟨lookup_eq_none_iff.mp hnone, h.nodup⟩
      · exact List.forall_mem_cons.mpr ⟨horig, h.entries⟩
      · simp only [Option.isSome_none, Bool.false_eq_true, if_false, List.nil_append,
          List.map_cons, List.count_cons, beq_iff_eq, eq_comm (a := seqId)]
        omega
      · exact fun hw => absurd hw hwait
    · next old oldSeqId hsome =>
      have hold : (msgKey, old, oldSeqId) ∈ c.recvMsgs := mem_of_lookup hsome
      split at ho
      · -- rejected
        next hpos =>
        subst ho
        refine ⟨hids, hids_le, h.nodup, h.entries, h.ledger_cons hcall hnew fun q hq => ?_, ?_,
          h.finishing⟩
        · simp only [Option.isSome_some, if_true, List.nil_append, List.singleton_append,
            List.count_cons, beq_iff_eq, eq_comm (a := seqId)]
          omega
        · refine List.forall_mem_cons.mpr ⟨⟨hpos, msgKey, v, old, oldSeqId, horig,
            h.entries _ hold, ?_⟩, h.conflict⟩
          rintro rfl
          exact hnew (h.mem_receivedIds_of_mem hpos hold)
      · next hzero =>
        subst ho
        refine ⟨hids, hids_le, h.nodup, h.entries, h.ledger_cons hcall hnew fun q hq => ?_,
          h.conflict, h.finishing⟩
        have hne : ¬q = seqId := by omega
        rw [if_neg hne]
        rfl

/-- **`OnMessage` for a normal message**, for the first time or again. -/
theorem Store.onNormalMessage (h : c.Store N orig passed taken rejected) (hN : N + 1 < 2 ^ 64)
    (hcall : callSeq key = some seqId) (hsplit : splitChannelKey key = .ok (msgKey, seqId))
    (hle : seqId ≤ N) (horig : orig msgKey v seqId) {o : Outcome Channel}
    (ho : c.onNormalMessage key v = o) :
    o.state.Store N orig ((key, v) :: passed) (o.acks ++ taken)
      ((if o.exception.isSome then [seqId] else []) ++ rejected) := by
  rw [Channel.onNormalMessage, hsplit] at ho
  dsimp only at ho
  split at ho
  · next hpos =>
    have hlt : seqId + 1 < 2 ^ 64 := by omega
    obtain ⟨hfst, hrep⟩ := SegmentTree.insert_eq h.ids hlt fun _ => h.card_lt hN
    have hids : insert seqId (receivedIds passed) = receivedIds ((key, v) :: passed) := by
      ext q
      rw [Finset.mem_insert, mem_receivedIds_cons, hcall, Option.some_inj]
      constructor
      · rintro (rfl | hq)
        · exact .inl ⟨hpos, rfl⟩
        · exact .inr hq
      · rintro (⟨-, rfl⟩ | hq)
        · exact .inl rfl
        · exact .inr hq
    rw [hids] at hrep
    by_cases hmem : seqId ∈ receivedIds passed
    · -- a duplicate
      rw [hfst, if_neg (by simp [hmem])] at ho
      subst ho
      rw [Finset.insert_eq_of_mem hmem] at hids
      refine ⟨hrep, hids ▸ h.ids_le, h.nodup, h.entries, ?_, h.conflict, h.finishing⟩
      rw [← hids]
      exact h.ledger
    · rw [hfst, if_pos (by simp [hmem])] at ho
      exact h.acceptMessage hcall hle horig hmem hrep ho
  · next hzero =>
    have hnot : seqId ∉ receivedIds passed := fun hmem => hzero (mem_receivedIds.mp hmem).1
    have hids : receivedIds ((key, v) :: passed) = receivedIds passed := by
      ext q
      rw [mem_receivedIds_cons, hcall, Option.some_inj]
      exact or_iff_right fun hq => hzero (hq.2 ▸ hq.1)
    exact h.acceptMessage hcall hle horig hnot (hids ▸ h.ids) ho

/-- Calls for acknowledgements and for the last message do not touch the messages. -/
theorem onMessage_control (c : Channel) (hkey : key = kAckKey ∨ key = kFinKey) (v : Memory) :
    (c.onMessage key v).state.recvMsgs = c.recvMsgs ∧
      (c.onMessage key v).state.receivedMsgIds = c.receivedMsgIds ∧
      (c.onMessage key v).state.waitingFinish = c.waitingFinish ∧
      (c.onMessage key v).acks = [] := by
  rcases hkey with rfl | rfl
  · rw [onMessage, if_pos rfl, onAck]
    split <;> exact ⟨rfl, rfl, rfl, rfl⟩
  · rw [onMessage, if_neg (by decide), if_pos rfl, onFin]
    split
    · exact ⟨rfl, rfl, rfl, rfl⟩
    · split <;> exact ⟨rfl, rfl, rfl, rfl⟩

theorem Store.onControl (h : c.Store N orig passed taken rejected)
    (hkey : key = kAckKey ∨ key = kFinKey) (v : Memory) :
    (c.onMessage key v).state.Store N orig ((key, v) :: passed) taken rejected := by
  have hids : receivedIds ((key, v) :: passed) = receivedIds passed := by
    ext q
    rw [mem_receivedIds_cons, callSeq, if_pos hkey]
    simp
  obtain ⟨hmsgs, htree, hwait, -⟩ := c.onMessage_control hkey v
  exact
    { ids := by rw [htree, hids]; exact h.ids
      ids_le := by rw [hids]; exact h.ids_le
      nodup := by rw [hmsgs]; exact h.nodup
      entries := by rw [hmsgs]; exact h.entries
      ledger := by rw [hmsgs, hids]; exact h.ledger
      conflict := h.conflict
      finishing := by rw [hmsgs, hwait]; exact h.finishing }

theorem perm_cons_filter (hnodup : (l.map Prod.fst).Nodup) {e : Memory × ℕ} (hmem : (k, e) ∈ l) :
    l.Perm ((k, e) :: l.filter fun e => e.1 ≠ k) := by
  obtain ⟨l₁, l₂, rfl⟩ := List.append_of_mem hmem
  rw [List.map_append] at hnodup
  have hnot := List.nodup_middle.mp hnodup
  rw [List.nodup_cons, List.mem_append, not_or] at hnot
  have hself : ∀ l : List (Str × Memory × ℕ), k ∉ l.map Prod.fst →
      (l.filter fun e => e.1 ≠ k) = l := by
    intro l hl
    refine List.filter_eq_self.mpr fun e' he' => decide_eq_true ?_
    rintro rfl
    exact hl (List.mem_map_of_mem he')
  rw [List.filter_append, List.filter_cons_of_neg (by simp), hself l₁ hnot.1.1, hself l₂ hnot.1.2]
  exact List.perm_middle

/-- **`Recv`** takes the message of its key out of the store. -/
theorem Store.take (h : c.Store N orig passed taken rejected) {c' : Channel}
    (htake : c.take msgKey = some ((v, seqId), c')) :
    orig msgKey v seqId ∧ c'.Store N orig passed (seqId :: taken) rejected := by
  rw [Channel.take, Option.map_eq_some_iff] at htake
  obtain ⟨e, hlookup, heq⟩ := htake
  obtain ⟨rfl, rfl⟩ := Prod.mk.inj heq
  have hmem : (msgKey, v, seqId) ∈ c.recvMsgs := mem_of_lookup hlookup
  have hperm := perm_cons_filter h.nodup hmem
  refine ⟨h.entries _ hmem, h.ids, h.ids_le, ?_, ?_, fun q hq => ?_, h.conflict, fun hw => ?_⟩
  · exact h.nodup.sublist (List.filter_sublist.map _)
  · exact fun e he => h.entries e (List.mem_of_mem_filter he)
  · rw [← h.ledger q hq, (hperm.map _).count_eq, List.map_cons, List.count_cons, List.count_cons]
    dsimp only
    omega
  · rw [h.finishing hw] at hmem
    exact absurd hmem List.not_mem_nil

/-- **`StopReceivingAndAckUnreadMsgs`** acknowledges what is stored. -/
theorem Store.stop (h : c.Store N orig passed taken rejected) :
    c.stopReceivingAndAckUnreadMsgs.state.Store N orig passed
      (c.stopReceivingAndAckUnreadMsgs.acks ++ taken) rejected := by
  refine ⟨h.ids, h.ids_le, List.nodup_nil, fun e he => absurd he List.not_mem_nil,
    fun q hq => ?_, h.conflict, fun _ => rfl⟩
  have hacks : ∀ l : List (Str × Memory × ℕ),
      (l.flatMap fun e => sendAck e.2.2).count q = (l.map (·.2.2)).count q := by
    intro l
    induction l with
    | nil => rfl
    | cons e l ih =>
      rw [List.flatMap_cons, List.count_append, count_sendAck hq, List.map_cons, List.count_cons,
        Nat.add_comm]
      congr 1
      exact if_congr (by rw [beq_iff_eq, eq_comm]) rfl rfl
  rw [← h.ledger q hq, stopReceivingAndAckUnreadMsgs, List.count_append, hacks, List.map_nil,
    List.count_nil]
  omega

/-- **What a call of `OnMessage` for a normal message can do.** -/
inductive NormalOutcome (c : Channel) (key : Str) (v : Memory) : Outcome Channel → Prop where
  /-- The key is malformed, or a message with it waits to be received. -/
  | thrown (ids : SegmentTree) (e : Exception) :
    NormalOutcome c key v ⟨{ c with receivedMsgIds := ids }, [], none, some e⟩
  | repeated (ids : SegmentTree) {msgKey : Str} {seqId : ℕ}
    (hsplit : splitChannelKey key = .ok (msgKey, seqId)) (hpos : 0 < seqId)
    (hold : (c.receivedMsgIds.insert seqId).1 = false) :
    NormalOutcome c key v ⟨{ c with receivedMsgIds := ids }, [], none, none⟩
  | stored (ids : SegmentTree) {msgKey : Str} {seqId : ℕ}
    (hsplit : splitChannelKey key = .ok (msgKey, seqId)) :
    NormalOutcome c key v ⟨{ c with
      receivedMsgIds := ids
      recvMsgs := (msgKey, v, seqId) :: c.recvMsgs }, [], some .msgDb, none⟩
  | acknowledged (ids : SegmentTree) {msgKey : Str} {seqId : ℕ}
    (hsplit : splitChannelKey key = .ok (msgKey, seqId)) (hwait : c.waitingFinish) :
    NormalOutcome c key v
      ⟨{ c with receivedMsgIds := ids }, sendAck seqId, some .msgDb, none⟩
  /-- The message has no number, and one with its key waits to be received. -/
  | dropped (ids : SegmentTree) :
    NormalOutcome c key v ⟨{ c with receivedMsgIds := ids }, [], some .msgDb, none⟩

theorem normalOutcome (c : Channel) (hkey : ¬(key = kAckKey ∨ key = kFinKey)) (v : Memory) :
    c.NormalOutcome key v (c.onMessage key v) := by
  obtain ⟨hack, hfin⟩ := not_or.mp hkey
  rw [onMessage, if_neg hack, if_neg hfin, onNormalMessage]
  split
  · exact .thrown c.receivedMsgIds _
  · next msgKey seqId hsplit =>
    have haccept : ∀ ids, c.NormalOutcome key v
        (acceptMessage { c with receivedMsgIds := ids } msgKey v seqId) := by
      intro ids
      rw [acceptMessage]
      split
      · next hwait => exact .acknowledged ids hsplit hwait
      · split
        · exact .stored ids hsplit
        · split
          · exact .thrown ids _
          · exact .dropped ids
    split
    · next hpos =>
      dsimp only
      split
      · exact haccept _
      · next hold => exact .repeated _ hsplit hpos (Bool.eq_false_iff.mpr hold)
    · exact haccept c.receivedMsgIds

/-- Only the start of `WaitLinkTaskFinish` makes a channel acknowledge messages by itself. -/
theorem waitingFinish_onMessage (c : Channel) (key : Str) (v : Memory) :
    (c.onMessage key v).state.waitingFinish = c.waitingFinish ∧
      ((c.onMessage key v).acks ≠ [] → c.waitingFinish) := by
  by_cases hkey : key = kAckKey ∨ key = kFinKey
  · obtain ⟨-, -, hwait, hacks⟩ := c.onMessage_control hkey v
    exact ⟨hwait, fun hne => absurd hacks hne⟩
  have hnormal := c.normalOutcome hkey v
  generalize c.onMessage key v = o at hnormal ⊢
  cases hnormal with
  | acknowledged ids hsplit hwait => exact ⟨rfl, fun _ => hwait⟩
  | _ => exact ⟨rfl, fun hne => absurd rfl hne⟩

theorem Store.perm_taken (h : c.Store N orig passed taken rejected) {taken' : List ℕ}
    (hperm : taken'.Perm taken) : c.Store N orig passed taken' rejected :=
  { h with ledger := fun q hq => hperm.count_eq q ▸ h.ledger q hq }

theorem Store.mono (h : c.Store N orig passed taken rejected) {N' : ℕ}
    {orig' : Str → Memory → ℕ → Prop} (hN : N ≤ N') (horig : ∀ k v q, orig k v q → orig' k v q) :
    c.Store N' orig' passed taken rejected :=
  { h with
    ids_le := fun q hq => (h.ids_le q hq).trans hN
    entries := fun e he => horig _ _ _ (h.entries e he)
    conflict := fun q hq => by
      obtain ⟨hpos, k, v, v', q', hv, hv', hne⟩ := h.conflict q hq
      exact ⟨hpos, k, v, v', q', horig _ _ _ hv, horig _ _ _ hv', hne⟩ }

end Channel

/-! ### The ledger along a run -/

/-- What an honest peer may send: an acknowledgement, its last message, or a normal message. -/
def Classified (N : ℕ) (orig : Str → Memory → ℕ → Prop) (t : Str × List Byte) : Prop :=
  (t.1 = kAckKey ∨ t.1 = kFinKey) ∨ ∃ msgKey seqId, callSeq t.1 = some seqId ∧
    splitChannelKey t.1 = .ok (msgKey, seqId) ∧ seqId ≤ N ∧ orig msgKey (t.2.map some) seqId

/-- The requests of an honest peer; everything else may happen at any time. -/
def Event.Allowed (B : ℕ) (sent : List (Str × List Byte)) : Event → Prop
  | .request r => ∃ t ∈ sent, r ∈ sendImpl B t.1 t.2
  | _ => True

instance (B : ℕ) (sent : List (Str × List Byte)) (e : Event) : Decidable (e.Allowed B sent) :=
  match e with
  | .request r => inferInstanceAs (Decidable (∃ t ∈ sent, r ∈ sendImpl B t.1 t.2))
  | .passOn _ => .isTrue trivial
  | .recv _ => .isTrue trivial
  | .stop => .isTrue trivial

namespace Receiver

/-- The ledger of a receiver and its history. -/
structure Ledger (s : Receiver) (N : ℕ) (orig : Str → Memory → ℕ → Prop) : Prop where
  store : s.channel.Store N orig s.history.passed
    (s.history.autoAcked ++ s.history.returned.map (·.2.2)) (s.history.thrown.filterMap callSeq)
  returned : ∀ e ∈ s.history.returned, orig e.1 e.2.1 e.2.2
  thrown : ∀ k ∈ s.history.thrown, k ∈ s.history.passed.map Prod.fst
  acked : s.history.autoAcked ≠ [] → s.channel.waitingFinish

/-- **What holds in every run with an honest peer.** -/
structure Inv (s : Receiver) (B N : ℕ) (sent : List (Str × List Byte))
    (orig : Str → Memory → ℕ → Prop) : Prop where
  inbox : s.inbox.Inv B sent s.history.delivered s.history.passed
  ledger : s.Ledger N orig

variable {s : Receiver} {B N : ℕ} {sent : List (Str × List Byte)}
  {orig : Str → Memory → ℕ → Prop}
variable {key : Str}

theorem filterMap_thrown_none (hkey : callSeq key = none) (p : Bool) (thrown : List Str) :
    ((if p then [key] else []) ++ thrown).filterMap callSeq = thrown.filterMap callSeq := by
  cases p <;> simp [hkey]

theorem filterMap_thrown_some {seqId : ℕ} (hkey : callSeq key = some seqId) (p : Bool)
    (thrown : List Str) : ((if p then [key] else []) ++ thrown).filterMap callSeq =
      (if p then [seqId] else []) ++ thrown.filterMap callSeq := by
  cases p <;> simp [hkey]

/-- **A call of `OnMessage`.** -/
theorem Ledger.call (h : s.Ledger N orig) (hN : N + 1 < 2 ^ 64) {v : List Byte}
    (hclass : Classified N orig (key, v)) : (s.call key (v.map some)).state.Ledger N orig := by
  obtain ⟨hwait, hacks⟩ := s.channel.waitingFinish_onMessage key (v.map some)
  constructor
  · dsimp only [Receiver.call]
    rcases hclass with hkey | ⟨msgKey, seqId, hcall, hsplit, hle, horig⟩
    · have hnone : callSeq key = none := if_pos hkey
      obtain ⟨-, -, -, hacks⟩ := s.channel.onMessage_control hkey (v.map some)
      rw [hacks, filterMap_thrown_none hnone]
      exact h.store.onControl hkey (v.map some)
    · obtain ⟨hack, hfin⟩ : key ≠ kAckKey ∧ key ≠ kFinKey := by
        refine not_or.mp fun hkey => ?_
        have hnone : callSeq key = none := if_pos hkey
        rw [hnone] at hcall
        nomatch hcall
      have hnormal : s.channel.onNormalMessage key (v.map some) =
          s.channel.onMessage key (v.map some) := by
        rw [Channel.onMessage, if_neg hack, if_neg hfin]
      rw [filterMap_thrown_some hcall, List.append_assoc]
      exact h.store.onNormalMessage hN hcall hsplit hle horig hnormal
  · exact h.returned
  · intro k hk
    dsimp only [Receiver.call] at hk ⊢
    rw [List.map_cons, List.mem_cons]
    rcases List.mem_append.mp hk with hk | hk
    · split at hk
      · exact .inl (List.mem_singleton.mp hk)
      · exact absurd hk List.not_mem_nil
    · exact .inr (h.thrown k hk)
  · intro hne
    dsimp only [Receiver.call] at hne ⊢
    rw [hwait]
    by_cases hnil : (s.channel.onMessage key (v.map some)).acks = []
    · rw [hnil] at hne
      exact h.acked hne
    · exact hacks hnil

theorem empty_inv (B N : ℕ) (orig : Str → Memory → ℕ → Prop) : empty.Inv B N [] orig where
  inbox := .empty B
  ledger :=
    { store :=
        { ids := SegmentTree.empty_represents
          ids_le := fun _ h => absurd h (Finset.notMem_empty _)
          nodup := List.nodup_nil
          entries := fun _ h => absurd h List.not_mem_nil
          ledger := fun _ _ => rfl
          conflict := fun _ h => absurd h List.not_mem_nil
          finishing := fun _ => rfl }
      returned := fun _ h => absurd h List.not_mem_nil
      thrown := fun _ h => absurd h List.not_mem_nil
      acked := fun h => absurd rfl h }

theorem Inv.mono (h : s.Inv B N sent orig) {N' : ℕ} {sent' : List (Str × List Byte)}
    {orig' : Str → Memory → ℕ → Prop} (hN : N ≤ N') (hsub : ∀ t ∈ sent, t ∈ sent')
    (hsent' : SentValid B sent') (horig : ∀ k v q, orig k v q → orig' k v q) :
    s.Inv B N' sent' orig' where
  inbox := h.inbox.mono_sent hsub hsent'
  ledger :=
    { h.ledger with
      store := h.ledger.store.mono hN horig
      returned := fun e he => horig _ _ _ (h.ledger.returned e he) }

theorem Inv.call {b : Inbox} {delivered : List Request} {w : Memory}
    (hinbox : b.Inv B sent delivered ((key, w) :: s.history.passed)) (h : s.Ledger N orig)
    (hclass : ∀ t ∈ sent, Classified N orig t) (hN : N + 1 < 2 ^ 64) :
    (call { s with inbox := b, history := { s.history with delivered := delivered } } key
      w).state.Inv B N sent orig := by
  obtain ⟨v, hkv, rfl, -⟩ := hinbox.calls key w (List.mem_append_right _ List.mem_cons_self)
  have h' : Ledger { s with inbox := b, history := { s.history with delivered := delivered } } N
      orig := ⟨h.store, h.returned, h.thrown, h.acked⟩
  exact ⟨hinbox, h'.call hN (hclass _ hkv)⟩

/-- **One event of a run.** -/
theorem Inv.step (h : s.Inv B N sent orig) (hsent : SentValid B sent)
    (hclass : ∀ t ∈ sent, Classified N orig t) (hB : 1 ≤ B) (hN : N + 1 < 2 ^ 64) {e : Event}
    (he : e.Allowed B sent) : (s.step e).state.Inv B N sent orig := by
  cases e with
  | request r =>
    obtain ⟨⟨k, v⟩, ht, hr⟩ := he
    obtain ⟨b', call, hreq, hinbox⟩ := h.inbox.onRequest hsent hB ht hr
    rw [Receiver.step]
    dsimp only
    rw [hreq]
    match call, hinbox with
    | none, hinbox =>
      exact ⟨hinbox, h.ledger.store, h.ledger.returned, h.ledger.thrown, h.ledger.acked⟩
    | some (key, w), hinbox => exact Inv.call hinbox h.ledger hclass hN
  | passOn i =>
    rw [Receiver.step]
    cases hi : s.inbox.handlers[i]? with
    | none => exact h
    | some call => exact Inv.call (h.inbox.passOn hi) h.ledger hclass hN
  | recv msgKey =>
    rw [Receiver.step]
    cases normalMessageKeyEnforce msgKey with
    | error err => exact h
    | ok =>
      cases htake : s.channel.take msgKey with
      | none => exact h
      | some entry =>
        obtain ⟨⟨v, seqId⟩, c⟩ := entry
        obtain ⟨horig, hstore⟩ := h.ledger.store.take htake
        refine ⟨h.inbox, hstore.perm_taken List.perm_middle, ?_, h.ledger.thrown, fun hne => ?_⟩
        · exact List.forall_mem_cons.mpr ⟨horig, h.ledger.returned⟩
        · rw [Channel.take, Option.map_eq_some_iff] at htake
          obtain ⟨entry, -, heq⟩ := htake
          rw [← (Prod.mk.inj heq).2]
          exact h.ledger.acked hne
  | stop =>
    refine ⟨h.inbox, ?_, h.ledger.returned, h.ledger.thrown, fun _ => rfl⟩
    have hstore := h.ledger.store.stop
    rw [← List.append_assoc] at hstore
    exact hstore

/-- **A whole run**, by induction on the events. -/
theorem run_inv (hsent : SentValid B sent) (hclass : ∀ t ∈ sent, Classified N orig t) (hB : 1 ≤ B)
    (hN : N + 1 < 2 ^ 64) {events : List Event} (h : ∀ e ∈ events, e.Allowed B sent) :
    (run events).Inv B N sent orig := by
  have hrun : ∀ (events : List Event) (s : Receiver), s.Inv B N sent orig →
      (∀ e ∈ events, e.Allowed B sent) →
      (events.foldl (fun s e => (s.step e).state) s).Inv B N sent orig := by
    intro events
    induction events with
    | nil => exact fun s hs _ => hs
    | cons e events ih =>
      intro s hs hall
      obtain ⟨he, hrest⟩ := List.forall_mem_cons.mp hall
      exact ih _ (hs.step hsent hclass hB hN he) hrest
  have hempty := empty_inv B N orig
  refine hrun events empty ⟨hempty.inbox.mono_sent ?_ hsent, hempty.ledger⟩ h
  exact fun t ht => absurd ht List.not_mem_nil

end Receiver

end Yacl.Link
