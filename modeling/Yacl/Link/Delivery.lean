import Yacl.Link.Channel

/-!
# Delivery

What a channel makes of the messages of its peer, in any run: the requests may come in any order and
any number of times, `Recv` may be called at any time and from several threads, and
`WaitLinkTaskFinish` may start at any time. The normal messages of the peer have pairwise distinct
keys. Besides them it sends the message of `TestSend`, which has the number 0 and a fixed key, and
acknowledgements and last messages, whose values do not matter here.

The keys on the wire are those of `SendAsync`: with the sequence number, or without it if
`disable_msg_seq_id_` is set. A message is in exactly one place from the moment it is accepted on
(`recv_delivery`), and a message in chunks arrives as it was sent (`chunked_roundTrip`).
-/

open Bytes

namespace Yacl.Link

/-- A normal message that passed `NormalMessageKeyEnforce`. The length of a `Buffer` is an
`int64_t`. -/
structure Msg where
  key : Str
  value : List Byte
  key_enforce : normalMessageKeyEnforce key = .ok ()
  length_lt : value.length < 2 ^ 63

theorem Msg.find_key (m : Msg) : find kSeqKey m.key = none := by
  obtain ⟨-, h⟩ := of_enforce_bind m.key_enforce
  by_contra hne
  rw [enforce_of_neg hne] at h
  nomatch h

/-- The sending half of a channel: its settings, and the normal messages in the order in which they
got their numbers. The keys are pairwise distinct. -/
structure Sender where
  rank : ℕ
  /-- `GetMaxBytesPerChunk`. -/
  bytesPerChunk : ℕ
  /-- `disable_msg_seq_id_`. -/
  disableMsgSeqId : Bool
  msgs : List Msg
  bytesPerChunk_pos : 1 ≤ bytesPerChunk
  keys_nodup : (msgs.map Msg.key).Nodup
  length_lt : msgs.length + 1 < 2 ^ 64

namespace Sender

/-- The key of `TestSend`: `connect_` and the rank. -/
def testKey (p : Sender) : Str :=
  [0x63, 0x6F, 0x6E, 0x6E, 0x65, 0x63, 0x74, 0x5F] ++ toDecimal p.rank

/-- The sequence number of a message. -/
def seqId (p : Sender) (i : ℕ) : ℕ := if p.disableMsgSeqId then 0 else i + 1

/-- The key of a message on the wire. -/
def channelKey (p : Sender) (i : ℕ) (m : Msg) : Str :=
  if p.disableMsgSeqId then m.key else buildChannelKey m.key (p.seqId i)

/-- The messages as a receiver knows them: those of the user and that of `TestSend`. -/
def Orig (p : Sender) (k : Str) (w : Memory) (q : ℕ) : Prop :=
  (∃ i m, p.msgs[i]? = some m ∧ k = m.key ∧ w = m.value.map some ∧ q = p.seqId i) ∨
    k = p.testKey ∧ w = [] ∧ q = 0

/-- One more message; its key was not used before. -/
def push (s : Sender) (m : Msg) (hkey : m.key ∉ s.msgs.map Msg.key)
    (hlen : s.msgs.length + 2 < 2 ^ 64) : Sender where
  rank := s.rank
  bytesPerChunk := s.bytesPerChunk
  disableMsgSeqId := s.disableMsgSeqId
  msgs := s.msgs ++ [m]
  bytesPerChunk_pos := s.bytesPerChunk_pos
  keys_nodup := by
    rw [List.map_append, List.map_singleton]
    exact List.nodup_append.mpr ⟨s.keys_nodup, List.nodup_singleton _, by simpa using hkey⟩
  length_lt := by
    rw [List.length_append, List.length_singleton]
    omega

variable {p : Sender}
variable {i : ℕ} {m : Msg}

theorem index_lt (h : p.msgs[i]? = some m) : i < p.msgs.length :=
  (List.getElem?_eq_some_iff.mp h).1

theorem seqId_lt (h : p.msgs[i]? = some m) : p.seqId i < 2 ^ 64 := by
  have hlt := p.length_lt
  have hi := index_lt h
  rw [seqId]
  split <;> omega

variable {j : ℕ}

theorem eq_of_key_eq {m' : Msg} (hi : p.msgs[i]? = some m) (hj : p.msgs[j]? = some m')
    (hkey : m.key = m'.key) : i = j ∧ m = m' := by
  have hkeys : (p.msgs.map Msg.key)[i]? = (p.msgs.map Msg.key)[j]? := by
    rw [List.getElem?_map, List.getElem?_map, hi, hj, Option.map_some, Option.map_some, hkey]
  have hij : i = j := by
    refine (List.getElem?_inj ?_ p.keys_nodup).mp hkeys
    rw [List.length_map]
    exact index_lt hi
  subst hij
  rw [hi] at hj
  exact ⟨rfl, Option.some_inj.mp hj⟩

theorem splitChannelKey_channelKey (h : p.msgs[i]? = some m) :
    splitChannelKey (p.channelKey i m) = .ok (m.key, p.seqId i) := by
  rw [channelKey]
  split
  · next hdis =>
    rw [splitChannelKey, m.find_key, seqId, if_pos hdis]
    rfl
  · exact splitChannelKey_buildChannelKey m.find_key (seqId_lt h)

theorem eq_of_channelKey_eq {m' : Msg} (hi : p.msgs[i]? = some m) (hj : p.msgs[j]? = some m')
    (hkey : p.channelKey i m = p.channelKey j m') : i = j ∧ m = m' := by
  have hsplit := splitChannelKey_channelKey hi
  rw [hkey, splitChannelKey_channelKey hj] at hsplit
  exact eq_of_key_eq hi hj (congrArg Prod.fst (Except.ok.inj hsplit)).symm

theorem channelKey_ne : ¬(p.channelKey i m = kAckKey ∨ p.channelKey i m = kFinKey) := by
  rw [channelKey]
  split
  · have hfind := m.find_key
    rintro (h | h)
    · rw [h] at hfind
      exact absurd hfind (by decide)
    · rw [h] at hfind
      exact absurd hfind (by decide)
  · exact buildChannelKey_ne _ _

theorem callSeq_channelKey (h : p.msgs[i]? = some m) :
    callSeq (p.channelKey i m) = some (p.seqId i) := by
  rw [callSeq, if_neg channelKey_ne, splitChannelKey_channelKey h]
  rfl

theorem find_testKey : find kSeqKey p.testKey = none := by
  refine find_kSeqKey_eq_none fun h => ?_
  rcases List.mem_append.mp h with h | h
  · exact absurd h (by decide)
  · exact absurd (mem_toDecimal h).1 (by decide)

/-- **Keys on the wire.** A key and a number are read back, two different pairs have different keys
on the wire, and no normal message and no message of `TestSend` has the key of an acknowledgement or
of a last message. -/
theorem channelKey_encoding :
    (∀ k : Str, k ≠ [] → ¬kSeqKey <:+: k → ∀ seqId < 2 ^ 64,
      splitChannelKey (buildChannelKey k seqId) = .ok (k, seqId)) ∧
    (∀ k k' : Str, k ≠ [] → k' ≠ [] → ¬kSeqKey <:+: k → ¬kSeqKey <:+: k' →
      ∀ i < 2 ^ 64, ∀ i' < 2 ^ 64, (k, i) ≠ (k', i') →
        buildChannelKey k i ≠ buildChannelKey k' i') ∧
    ∀ (p : Sender) (i : ℕ) (m : Msg),
      ¬(p.channelKey i m = kAckKey ∨ p.channelKey i m = kFinKey) ∧
      ¬(buildChannelKey p.testKey 0 = kAckKey ∨ buildChannelKey p.testKey 0 = kFinKey) := by
  refine ⟨fun k _ h seqId hseq => ?_, fun k k' _ _ h h' i hi i' hi' hne heq => hne ?_,
    fun p i m => ⟨channelKey_ne, buildChannelKey_ne _ _⟩⟩
  · exact splitChannelKey_buildChannelKey (find_eq_none h) hseq
  · obtain ⟨hk, hseq⟩ := buildChannelKey_inj (find_eq_none h) (find_eq_none h') hi hi' heq
    rw [hk, hseq]

/-- A key with the two bytes of the separator, but not next to each other, and two numbers of which
one begins with the other one. -/
theorem channelKey_encoding_apart :
    splitChannelKey (buildChannelKey [0x01, 0x61, 0x02] 12) = .ok ([0x01, 0x61, 0x02], 12) ∧
      buildChannelKey [0x01, 0x61, 0x02] 1 ≠ buildChannelKey [0x01, 0x61, 0x02] 12 :=
  have hkey : ¬kSeqKey <:+: [0x01, 0x61, 0x02] := by decide
  ⟨channelKey_encoding.1 _ (by decide) hkey 12 (by decide),
    channelKey_encoding.2.1 _ _ (by decide) (by decide) hkey hkey 1 (by decide) 12 (by decide)
      (by decide)⟩

theorem callSeq_testKey : callSeq (buildChannelKey p.testKey 0) = some 0 := by
  rw [callSeq, if_neg, splitChannelKey_buildChannelKey find_testKey (by omega)]
  · rfl
  · exact buildChannelKey_ne _ _

theorem eq_of_seqId_eq (hpos : 0 < p.seqId i) (heq : p.seqId i = p.seqId j) : i = j := by
  rw [seqId] at hpos heq
  rw [seqId] at heq
  split at hpos
  · omega
  · next hdis =>
    rw [if_neg hdis, if_neg hdis] at heq
    omega

theorem Orig.eq_of_seqId (hm : p.msgs[i]? = some m) (hpos : 0 < p.seqId i) {k : Str} {w : Memory}
    (h : p.Orig k w (p.seqId i)) : k = m.key ∧ w = m.value.map some := by
  rcases h with ⟨j, m', hm', rfl, rfl, heq⟩ | ⟨-, -, hzero⟩
  · obtain rfl := eq_of_seqId_eq hpos heq
    rw [hm] at hm'
    obtain rfl := Option.some_inj.mp hm'
    exact ⟨rfl, rfl⟩
  · omega

end Sender

/-- A peer and everything that it sends. Acknowledgements all have the same key, so at most one of
them may be so long that it is sent in chunks. -/
structure Peer extends Sender where
  /-- Acknowledgements and last messages. -/
  controls : List (Str × List Byte)
  controls_key : ∀ t ∈ controls, t.1 = kAckKey ∨ t.1 = kFinKey
  controls_valid : SentValid bytesPerChunk controls

namespace Peer

open Sender

/-- The keys and values that `SendImpl` is called with. -/
def sent (p : Peer) : List (Str × List Byte) :=
  p.msgs.mapIdx (fun i m => (p.channelKey i m, m.value)) ++
    (buildChannelKey p.testKey 0, []) :: p.controls

variable (p : Peer)

theorem mem_sent {t : Str × List Byte} :
    t ∈ p.sent ↔ (∃ i m, p.msgs[i]? = some m ∧ t = (p.channelKey i m, m.value)) ∨
      t = (buildChannelKey p.testKey 0, []) ∨ t ∈ p.controls := by
  rw [sent, List.mem_append, List.mem_cons, List.mem_mapIdx]
  refine or_congr_left ⟨?_, ?_⟩
  · rintro ⟨i, hi, rfl⟩
    exact ⟨i, p.msgs[i], List.getElem?_eq_getElem hi, rfl⟩
  · rintro ⟨i, m, hm, rfl⟩
    obtain ⟨hi, rfl⟩ := List.getElem?_eq_some_iff.mp hm
    exact ⟨i, hi, rfl⟩

theorem sentValid : SentValid p.bytesPerChunk p.sent := by
  have hlong : ∀ k v, (k, v) ∈ p.sent → p.bytesPerChunk < v.length →
      (∃ i m, p.msgs[i]? = some m ∧ k = p.channelKey i m ∧ v = m.value) ∨ (k, v) ∈ p.controls := by
    intro k v ht hv
    rcases p.mem_sent.mp ht with ⟨i, m, hm, heq⟩ | heq | hcontrol
    · obtain ⟨rfl, rfl⟩ := Prod.mk.inj heq
      exact .inl ⟨i, m, hm, rfl, rfl⟩
    · obtain ⟨-, rfl⟩ := Prod.mk.inj heq
      exact absurd hv (by simp)
    · exact .inr hcontrol
  constructor
  · intro t ht
    rcases p.mem_sent.mp ht with ⟨i, m, hm, rfl⟩ | rfl | hcontrol
    · exact m.length_lt
    · dsimp only [List.length_nil]
      omega
    · exact p.controls_valid.length_lt t hcontrol
  · intro k v v' hkv hkv' hv hv'
    rcases hlong k v hkv hv, hlong k v' hkv' hv' with
      ⟨⟨i, m, hm, rfl, rfl⟩ | hc, ⟨j, m', hm', hk, rfl⟩ | hc'⟩
    · rw [(eq_of_channelKey_eq hm hm' hk).2]
    · exact absurd (p.controls_key _ hc') channelKey_ne
    · exact absurd (hk ▸ p.controls_key _ hc) channelKey_ne
    · exact p.controls_valid.unique k v v' hc hc' hv hv'

theorem classified : ∀ t ∈ p.sent, Classified p.msgs.length p.Orig t := by
  intro t ht
  rcases p.mem_sent.mp ht with ⟨i, m, hm, rfl⟩ | rfl | hcontrol
  · refine .inr ⟨m.key, p.seqId i, callSeq_channelKey hm, splitChannelKey_channelKey hm, ?_,
      .inl ⟨i, m, hm, rfl, rfl, rfl⟩⟩
    have hi := index_lt hm
    rw [seqId]
    split <;> omega
  · exact .inr ⟨p.testKey, 0, callSeq_testKey,
      splitChannelKey_buildChannelKey find_testKey (by omega), Nat.zero_le _, .inr ⟨rfl, rfl, rfl⟩⟩
  · exact .inl (p.controls_key t hcontrol)

/-- **Every run with this peer.** -/
theorem run_inv {events : List Event} (h : ∀ e ∈ events, e.Allowed p.bytesPerChunk p.sent) :
    (Receiver.run events).Inv p.bytesPerChunk p.msgs.length p.sent p.Orig :=
  Receiver.run_inv p.sentValid p.classified p.bytesPerChunk_pos p.length_lt h

variable {p}

/-- A key on the wire with a number is the key of the message that got this number. -/
theorem eq_channelKey {i : ℕ} {m : Msg} (hm : p.msgs[i]? = some m) (hpos : 0 < p.seqId i) {k : Str}
    {v : List Byte} (hsent : (k, v) ∈ p.sent) (hcall : callSeq k = some (p.seqId i)) :
    k = p.channelKey i m := by
  rcases p.mem_sent.mp hsent with ⟨j, m', hm', heq⟩ | heq | hcontrol
  · obtain ⟨rfl, rfl⟩ := Prod.mk.inj heq
    rw [callSeq_channelKey hm', Option.some_inj] at hcall
    obtain rfl := eq_of_seqId_eq hpos hcall.symm
    rw [hm] at hm'
    rw [Option.some_inj.mp hm']
  · obtain ⟨rfl, rfl⟩ := Prod.mk.inj heq
    rw [callSeq_testKey, Option.some_inj] at hcall
    omega
  · have hnone : callSeq k = none := if_pos (p.controls_key _ hcontrol)
    rw [hnone] at hcall
    nomatch hcall

theorem eq_value {i : ℕ} {m : Msg} (hm : p.msgs[i]? = some m) {v : List Byte}
    (hsent : (p.channelKey i m, v) ∈ p.sent) : v = m.value := by
  rcases p.mem_sent.mp hsent with ⟨j, m', hm', heq⟩ | heq | hcontrol
  · obtain ⟨hkey, rfl⟩ := Prod.mk.inj heq
    rw [(eq_of_channelKey_eq hm hm' hkey).2]
  · obtain ⟨hkey, -⟩ := Prod.mk.inj heq
    have hsplit := splitChannelKey_channelKey hm
    rw [hkey, splitChannelKey_buildChannelKey find_testKey (by omega)] at hsplit
    have hseq : 0 = p.seqId i := congrArg Prod.snd (Except.ok.inj hsplit)
    rw [seqId] at hseq
    split at hseq
    · -- without a number the key on the wire has no separator
      next hdis =>
      rw [channelKey, if_pos hdis] at hkey
      have hfind := m.find_key
      rw [hkey, buildChannelKey, find_append_kSeqKey find_testKey] at hfind
      contradiction
    · omega
  · exact absurd (p.controls_key _ hcontrol) channelKey_ne

end Peer

/-- A message is accepted if its number was recorded and no call of `OnMessage` for it threw. -/
def Receiver.Accepted (s : Receiver) (key : Str) (seqId : ℕ) : Prop :=
  s.channel.receivedMsgIds.contains seqId ∧ key ∉ s.history.thrown

/-- How often `Recv` returned a message, how often it is stored, and how often it was acknowledged
without a `Recv`. -/
def Receiver.places (s : Receiver) (seqId : ℕ) : ℕ × ℕ × ℕ :=
  ((s.history.returned.map (·.2.2)).count seqId, (s.channel.recvMsgs.map (·.2.2)).count seqId,
    s.history.autoAcked.count seqId)

/-- **The delivery of one message.** -/
structure Receiver.Delivers (s : Receiver) (p : Peer) (i : ℕ) (m : Msg) : Prop where
  /-- `Recv` returns it at most once. -/
  at_most_once : (s.places (p.seqId i)).1 ≤ 1
  /-- Only a `Recv` on its own key returns it, with its own bytes. -/
  own : ∀ e ∈ s.history.returned, e.2.2 = p.seqId i → e = (m.key, m.value.map some, p.seqId i)
  /-- A message that reached `OnMessage` is accepted, unless its key is that of `TestSend`. -/
  accepted : p.channelKey i m ∈ s.history.passed.map Prod.fst → m.key ≠ p.testKey →
    s.Accepted (p.channelKey i m) (p.seqId i)
  /-- A message that was accepted is in exactly one place. -/
  one_place : s.Accepted (p.channelKey i m) (p.seqId i) →
    (s.places (p.seqId i)).1 + (s.places (p.seqId i)).2.1 + (s.places (p.seqId i)).2.2 = 1
  /-- A message is acknowledged without a `Recv` only after the channel started to finish. -/
  acked : 0 < (s.places (p.seqId i)).2.2 → s.channel.waitingFinish

/-- **Channel delivery.** -/
theorem recv_delivery (p : Peer) {events : List Event}
    (h : ∀ e ∈ events, e.Allowed p.bytesPerChunk p.sent) {i : ℕ} {m : Msg}
    (hm : p.msgs[i]? = some m) (hpos : 0 < p.seqId i) : (Receiver.run events).Delivers p i m := by
  have hinv := p.run_inv h
  generalize Receiver.run events = s at hinv ⊢
  have hstore := hinv.ledger.store
  have hledger := hstore.ledger _ hpos
  have hle : (if p.seqId i ∈ receivedIds s.history.passed then 1 else 0) ≤ 1 := by split <;> omega
  rw [List.count_append] at hledger
  have hcontains := Utils.SegmentTree.contains_eq hstore.ids (p.seqId i)
  constructor
  · rw [Receiver.places]
    omega
  · rintro ⟨k, w, q⟩ he rfl
    obtain ⟨rfl, rfl⟩ := Sender.Orig.eq_of_seqId hm hpos (hinv.ledger.returned _ he)
    rfl
  · intro hpassed htest
    obtain ⟨c, hc, hkey⟩ := List.mem_map.mp hpassed
    have hcall := Sender.callSeq_channelKey hm
    refine ⟨?_, fun hthrown => htest ?_⟩
    · rw [hcontains, decide_eq_true_iff, mem_receivedIds]
      exact ⟨hpos, c, hc, hkey ▸ hcall⟩
    · -- only a message that is stored under the same key can be in the way
      obtain ⟨-, k, v, v', q', horig, horig', hne⟩ :=
        hstore.conflict (p.seqId i) (List.mem_filterMap.mpr ⟨_, hthrown, hcall⟩)
      obtain ⟨rfl, -⟩ := horig.eq_of_seqId hm hpos
      rcases horig' with ⟨j, m', hm', hk, -, rfl⟩ | ⟨hk, -, -⟩
      · obtain ⟨rfl, -⟩ := Sender.eq_of_key_eq hm hm' hk
        exact absurd rfl hne
      · exact hk
  · rintro ⟨hin, hnot⟩
    rw [hcontains, decide_eq_true_iff] at hin
    have hrejected : (s.history.thrown.filterMap callSeq).count (p.seqId i) = 0 := by
      refine List.count_eq_zero.mpr fun hmem => hnot ?_
      obtain ⟨k, hk, hcall⟩ := List.mem_filterMap.mp hmem
      obtain ⟨⟨k', w⟩, hc, rfl⟩ := List.mem_map.mp (hinv.ledger.thrown k hk)
      obtain ⟨v, hkv, -, -⟩ := hinv.inbox.calls k' w (List.mem_append_right _ hc)
      rw [← Peer.eq_channelKey hm hpos hkv hcall]
      exact hk
    rw [if_pos hin] at hledger
    rw [Receiver.places]
    dsimp only
    omega
  · intro hcount
    refine hinv.ledger.acked fun hnil => ?_
    rw [Receiver.places, hnil] at hcount
    exact absurd hcount (by simp)

/-- A message of three bytes. -/
def threeBytes : Msg where
  key := [0x61]
  value := [1, 2, 3]
  key_enforce := by decide
  length_lt := by decide

/-- A peer that sends one message. -/
def onePeer (bytesPerChunk : ℕ) (h : 1 ≤ bytesPerChunk) : Peer where
  rank := 0
  bytesPerChunk := bytesPerChunk
  disableMsgSeqId := false
  msgs := [threeBytes]
  controls := []
  bytesPerChunk_pos := h
  keys_nodup := by decide
  length_lt := by decide
  controls_key := fun _ h => absurd h List.not_mem_nil
  controls_valid := ⟨fun _ h => absurd h List.not_mem_nil, fun _ _ _ h => absurd h List.not_mem_nil⟩

/-- The message comes twice and is read once. -/
def monoEvents : List Event :=
  [.request (.mono (buildChannelKey [0x61] 1) [1, 2, 3]), .recv [0x61],
    .request (.mono (buildChannelKey [0x61] 1) [1, 2, 3]), .recv [0x61]]

theorem recv_delivery_twice :
    (Receiver.run monoEvents).history.returned = [([0x61], [some 1, some 2, some 3], 1)] ∧
      (Receiver.run monoEvents).Delivers (onePeer 4 (by decide)) 0 threeBytes :=
  ⟨by decide +kernel, recv_delivery (onePeer 4 (by decide)) (by decide +kernel) rfl (by decide)⟩

/-- **The transfer of one message in chunks.** -/
structure Receiver.Transfers (s : Receiver) (p : Peer) (i : ℕ) (m : Msg) : Prop where
  /-- `OnMessage` is called with the bytes that were sent, -/
  bytes : ∀ w, (p.channelKey i m, w) ∈ s.history.passed → w = m.value.map some
  /-- not before all chunks came, -/
  not_before : p.channelKey i m ∈ s.history.passed.map Prod.fst →
    ∀ r ∈ sendChunked p.bytesPerChunk (p.channelKey i m) m.value, r ∈ s.history.delivered
  /-- and as soon as all chunks came a thread has called it or is about to. -/
  passed : (∀ r ∈ sendChunked p.bytesPerChunk (p.channelKey i m) m.value,
    r ∈ s.history.delivered) →
      (p.channelKey i m, m.value.map some) ∈ s.inbox.handlers ++ s.history.passed
  /-- `Recv` returns what was sent, whatever comes later. -/
  recv : ∀ e ∈ s.history.returned, e.1 = m.key →
    e = (m.key, m.value.map some, p.seqId i) ∨ e = (p.testKey, [], 0)
  once : 0 < p.seqId i → (s.history.returned.map (·.2.2)).count (p.seqId i) ≤ 1

/-- **Chunked transfer round trip.** -/
theorem chunked_roundTrip (p : Peer) {events : List Event}
    (h : ∀ e ∈ events, e.Allowed p.bytesPerChunk p.sent) {i : ℕ} {m : Msg}
    (hm : p.msgs[i]? = some m) (hlong : p.bytesPerChunk < m.value.length) :
    (Receiver.run events).Transfers p i m := by
  have hinv := p.run_inv h
  generalize Receiver.run events = s at hinv ⊢
  have himpl : sendImpl p.bytesPerChunk (p.channelKey i m) m.value =
      sendChunked p.bytesPerChunk (p.channelKey i m) m.value := if_pos hlong
  constructor
  · intro w hw
    obtain ⟨v, hkv, rfl, -⟩ := hinv.inbox.calls _ w (List.mem_append_right _ hw)
    rw [Peer.eq_value hm hkv]
  · intro hpassed
    obtain ⟨⟨k, w⟩, hw, rfl⟩ := List.mem_map.mp hpassed
    obtain ⟨v, hkv, -, hall⟩ := hinv.inbox.calls _ w (List.mem_append_right _ hw)
    rw [Peer.eq_value hm hkv, himpl] at hall
    exact hall
  · intro hall
    rw [← himpl] at hall
    exact hinv.inbox.mem_calls p.sentValid p.bytesPerChunk_pos
      (p.mem_sent.mpr (.inl ⟨i, m, hm, rfl⟩)) hall
  · rintro ⟨k, w, q⟩ he hk
    subst hk
    rcases hinv.ledger.returned _ he with ⟨j, m', hm', hkey, hw, hq⟩ | ⟨hkey, hw, hq⟩
    · obtain ⟨rfl, rfl⟩ := Sender.eq_of_key_eq hm hm' hkey
      exact .inl (Prod.ext rfl (Prod.ext hw hq))
    · exact .inr (Prod.ext hkey (Prod.ext hw hq))
  · intro hpos
    have hledger := hinv.ledger.store.ledger _ hpos
    rw [List.count_append] at hledger
    have hle : (if p.seqId i ∈ receivedIds s.history.passed then 1 else 0) ≤ 1 := by
      split <;> omega
    omega

/-- The second chunk comes first, and then again. -/
def chunkEvents : List Event :=
  let chunk := packChunk 2 (buildChannelKey [0x61] 1) [1, 2, 3]
  [.request (.chunked (chunk 1)), .request (.chunked (chunk 0)), .passOn 0, .recv [0x61],
    .request (.chunked (chunk 1))]

theorem chunked_roundTrip_reordered :
    (Receiver.run chunkEvents).history.returned = [([0x61], [some 1, some 2, some 3], 1)] ∧
      (Receiver.run chunkEvents).Transfers (onePeer 2 (by decide)) 0 threeBytes :=
  ⟨by decide +kernel,
    chunked_roundTrip (onePeer 2 (by decide)) (by decide +kernel) rfl (by decide)⟩

end Yacl.Link
