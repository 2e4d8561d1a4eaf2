import Yacl.Link.Delivery

/-!
# Acknowledgements and last messages

What the receiving half of a channel knows of its peer besides the messages: the numbers that the
peer has acknowledged, and whether its last message came and how many messages it announced
(`Receiver.Controls`). An honest peer acknowledges numbers that exist, announces the number of its
messages, and uses no key twice (`Honest`).

`Effect` is the contract between the receiving half and the threads of the channel: numbers only
come in, and whoever waits for them on a condition variable is notified when one comes. The second
part rests on the keys: a message that is rejected because its key is in use is recorded without a
notification, but no message of an honest peer is rejected.
-/

open Bytes
open Yacl.Utils (SegmentTree)

namespace Yacl.Link

/-- The number in a call of `OnMessage` for an acknowledgement. -/
def callAck (c : Str × Memory) : Option ℕ :=
  if c.1 = kAckKey then (Channel.readMemory c.2 >>= viewToSizeT).toOption else none

/-- The numbers that the peer has acknowledged. -/
def ackedIds (passed : List (Str × Memory)) : Finset ℕ := (passed.filterMap callAck).toFinset

variable {passed : List (Str × Memory)} {a : ℕ}

theorem mem_ackedIds : a ∈ ackedIds passed ↔ ∃ c ∈ passed, callAck c = some a := by
  rw [ackedIds, List.mem_toFinset, List.mem_filterMap]

theorem readMemory_map_some (v : List Byte) : Channel.readMemory (v.map some) = .ok v := by
  induction v with
  | nil => rfl
  | cons b v ih =>
    rw [Channel.readMemory] at ih ⊢
    rw [List.map_cons, List.mapM_cons, ih]
    rfl

theorem readMemory_toDecimal (ha : a < 2 ^ 64) :
    (Channel.readMemory ((toDecimal a).map some) >>= viewToSizeT) = .ok a := by
  rw [readMemory_map_some, ok_bind, viewToSizeT_toDecimal ha]

theorem callAck_toDecimal (ha : a < 2 ^ 64) :
    callAck (kAckKey, (toDecimal a).map some) = some a := by
  rw [callAck, readMemory_toDecimal ha]
  rfl

variable {c : Str × Memory}

theorem ackedIds_cons (h : callAck c = some a) :
    ackedIds (c :: passed) = insert a (ackedIds passed) := by
  rw [ackedIds, List.filterMap_cons_some h, List.toFinset_cons]
  rfl

theorem ackedIds_cons_of_none (h : callAck c = none) :
    ackedIds (c :: passed) = ackedIds passed := by
  rw [ackedIds, List.filterMap_cons_none h]
  rfl

theorem receivedIds_cons_of_none (h : callSeq c.1 = none) :
    receivedIds (c :: passed) = receivedIds passed := by
  ext q
  rw [mem_receivedIds_cons, h]
  exact or_iff_right fun hc => nomatch hc.2

/-! ### The calls of `OnMessage` -/

namespace Channel

variable (c : Channel)

theorem onMessage_ack {a : ℕ} (ha : a < 2 ^ 64) :
    c.onMessage kAckKey ((toDecimal a).map some) =
      ⟨{ c with receivedAckIds := (c.receivedAckIds.insert a).2 }, [],
        if (c.receivedAckIds.insert a).1 then some .ackFin else none, none⟩ := by
  rw [onMessage, if_pos rfl, onAck, readMemory_toDecimal ha]

theorem onMessage_fin_again (h : c.receivedFin = true) (w : Memory) :
    c.onMessage kFinKey w = .quiet c := by
  rw [onMessage, if_neg (by decide), if_pos rfl, onFin, if_pos h]

theorem onMessage_fin {n : ℕ} (h : c.receivedFin = false) (hn : n < 2 ^ 64) :
    c.onMessage kFinKey ((toDecimal n).map some) =
      ⟨{ c with receivedFin := true, peerSentMsgCount := n }, [], some .ackFin, none⟩ := by
  rw [onMessage, if_neg (by decide), if_pos rfl, onFin, if_neg (by rw [h]; decide)]
  rw [readMemory_toDecimal hn]

theorem onMessage_normal {key : Str} (hkey : ¬(key = kAckKey ∨ key = kFinKey)) (w : Memory) :
    (c.onMessage key w).state.receivedAckIds = c.receivedAckIds ∧
      (c.onMessage key w).state.receivedFin = c.receivedFin ∧
      (c.onMessage key w).state.peerSentMsgCount = c.peerSentMsgCount := by
  have hnormal := c.normalOutcome hkey w
  generalize c.onMessage key w = o at hnormal ⊢
  cases hnormal <;> exact ⟨rfl, rfl, rfl⟩

/-- A call for a normal message that notifies nobody has thrown, or its number came before. -/
theorem onMessage_quiet {key msgKey : Str} {q : ℕ} (hkey : ¬(key = kAckKey ∨ key = kFinKey))
    (hsplit : splitChannelKey key = .ok (msgKey, q)) {w : Memory}
    (hquiet : (c.onMessage key w).notified ≠ some .msgDb) :
    (c.onMessage key w).exception.isSome ∨ 0 < q ∧ (c.receivedMsgIds.insert q).1 = false := by
  have hnormal := c.normalOutcome hkey w
  generalize c.onMessage key w = o at hnormal hquiet ⊢
  cases hnormal with
  | thrown => exact .inl rfl
  | repeated ids hsplit' hpos hold =>
    obtain ⟨-, rfl⟩ := Prod.mk.inj (Except.ok.inj (hsplit.symm.trans hsplit'))
    exact .inr ⟨hpos, hold⟩
  | _ => exact absurd rfl hquiet

end Channel

/-! ### What is known of the peer -/

/-- **An honest peer** that has sent `N` messages: it acknowledges numbers up to `M`, its last
message announces `N`, and no two messages have the same key. -/
structure Honest (B N M : ℕ) (sent : List (Str × List Byte)) (orig : Str → Memory → ℕ → Prop) :
    Prop where
  bytesPerChunk_pos : 1 ≤ B
  sent_valid : SentValid B sent
  classified : ∀ t ∈ sent, Classified N orig t
  acks : ∀ v, (kAckKey, v) ∈ sent → ∃ a ∈ Finset.Icc 1 M, v = toDecimal a
  fins : ∀ v, (kFinKey, v) ∈ sent → v = toDecimal N
  no_conflict : ∀ k v v' q q', 0 < q → orig k v q → orig k v' q' → q' = q
  N_lt : N + 1 < 2 ^ 64
  M_lt : M + 1 < 2 ^ 64

/-- The numbers of the messages that `Recv` returned or that were acknowledged without a `Recv`. -/
def Receiver.taken (s : Receiver) : List ℕ :=
  s.history.autoAcked ++ s.history.returned.map (·.2.2)

/-- The channel knows of its peer what it was told. -/
structure Receiver.Controls (s : Receiver) (N : ℕ) : Prop where
  acks : s.channel.receivedAckIds.Represents (ackedIds s.history.passed)
  fin : s.channel.receivedFin ↔ kFinKey ∈ s.history.passed.map Prod.fst
  count : s.channel.receivedFin → s.channel.peerSentMsgCount = N

/-- **The effect of a call** on what the threads of the channel wait for. -/
structure Effect (s : Receiver) (o : Outcome Receiver) : Prop where
  delivered : s.history.delivered ⊆ o.state.history.delivered
  received : receivedIds s.history.passed ⊆ receivedIds o.state.history.passed
  acked : ackedIds s.history.passed ⊆ ackedIds o.state.history.passed
  fin : s.channel.receivedFin → o.state.channel.receivedFin
  waiting : s.channel.waitingFinish → o.state.channel.waitingFinish
  /-- Who waits for messages is notified when one comes. -/
  msgDb : o.notified ≠ some .msgDb →
    receivedIds o.state.history.passed = receivedIds s.history.passed
  /-- Who waits for acknowledgements or the last message is notified when one comes. -/
  ackFin : o.notified ≠ some .ackFin →
    ackedIds o.state.history.passed = ackedIds s.history.passed ∧
      o.state.channel.receivedFin = s.channel.receivedFin
  acks : ∀ a ∈ o.acks, 0 < a ∧ a ∈ o.state.taken
  taken : ∀ a ∈ o.state.taken, a ∈ s.taken ∨ a ∈ o.acks ∨ a = 0

namespace Receiver

variable {s : Receiver} {B N M : ℕ} {sent : List (Str × List Byte)}
  {orig : Str → Memory → ℕ → Prop}

theorem Ledger.mem_receivedIds (h : s.Ledger N orig) {a : ℕ} (ha : a ∈ s.taken) (hpos : 0 < a) :
    a ∈ receivedIds s.history.passed := by
  by_contra hnot
  have hledger := h.store.ledger a hpos
  rw [if_neg hnot] at hledger
  have hcount : 0 < s.taken.count a := List.count_pos_iff.mpr ha
  rw [taken] at hcount
  omega

theorem Ledger.thrown_eq (h : s.Ledger N orig) (hh : Honest B N M sent orig) :
    s.history.thrown.filterMap callSeq = [] := by
  refine List.eq_nil_iff_forall_not_mem.mpr fun q hq => ?_
  obtain ⟨hpos, k, v, v', q', hv, hv', hne⟩ := h.store.conflict q hq
  exact hne (hh.no_conflict k v v' q q' hpos hv hv')

theorem ackedIds_le {passed : List (Str × Memory)} (hh : Honest B N M sent orig)
    (hpassed : ∀ k w, (k, w) ∈ passed → ∃ v, (k, v) ∈ sent ∧ w = v.map some) :
    ackedIds passed ⊆ Finset.Icc 1 M := by
  intro a ha
  obtain ⟨⟨k, w⟩, hmem, hack⟩ := mem_ackedIds.mp ha
  obtain ⟨v, hkv, rfl⟩ := hpassed k w hmem
  have hk : k = kAckKey := by
    by_contra hne
    rw [callAck, if_neg hne] at hack
    nomatch hack
  subst hk
  obtain ⟨b, hb, rfl⟩ := hh.acks v hkv
  have hle := (Finset.mem_Icc.mp hb).2
  have hM := hh.M_lt
  rw [callAck_toDecimal (by omega), Option.some_inj] at hack
  exact hack ▸ hb

theorem call_taken (s : Receiver) (key : Str) (w : Memory) :
    (s.call key w).state.taken = (s.call key w).acks ++ s.taken :=
  List.append_assoc _ _ _

theorem mem_sendAck {q a : ℕ} : a ∈ Channel.sendAck q ↔ 0 < a ∧ a = q := by
  rw [Channel.sendAck]
  split
  · next hpos =>
    rw [List.mem_singleton]
    exact ⟨fun h => ⟨h ▸ hpos, h⟩, And.right⟩
  · next hzero => exact ⟨fun h => absurd h List.not_mem_nil, fun h => absurd (h.2 ▸ h.1) hzero⟩

theorem call_acks_pos (s : Receiver) (key : Str) (w : Memory) :
    ∀ a ∈ (s.call key w).acks, 0 < a := by
  intro a ha
  dsimp only [call] at ha
  by_cases hkey : key = kAckKey ∨ key = kFinKey
  · rw [(s.channel.onMessage_control hkey w).2.2.2] at ha
    exact absurd ha List.not_mem_nil
  have hnormal := s.channel.normalOutcome hkey w
  generalize s.channel.onMessage key w = o at hnormal ha
  cases hnormal with
  | acknowledged => exact (mem_sendAck.mp ha).1
  | _ => exact absurd ha List.not_mem_nil

theorem call_effect_of (s : Receiver) {key : Str} {w : Memory} {o : Outcome Channel}
    (ho : s.channel.onMessage key w = o) (hfin : s.channel.receivedFin → o.state.receivedFin)
    (hmsgDb : o.notified ≠ some .msgDb →
      receivedIds ((key, w) :: s.history.passed) = receivedIds s.history.passed)
    (hackFin : o.notified ≠ some .ackFin →
      ackedIds ((key, w) :: s.history.passed) = ackedIds s.history.passed ∧
        o.state.receivedFin = s.channel.receivedFin)
    (hacks : o.state.receivedAckIds.Represents (ackedIds ((key, w) :: s.history.passed)))
    (hfins : o.state.receivedFin ↔ kFinKey ∈ ((key, w) :: s.history.passed).map Prod.fst)
    (hcount : o.state.receivedFin → o.state.peerSentMsgCount = N) :
    Effect s (s.call key w) ∧ (s.call key w).state.Controls N := by
  subst ho
  refine ⟨⟨fun _ h => h, fun q hq => mem_receivedIds_cons.mpr (.inr hq), fun a ha => ?_, hfin,
    fun h => (s.channel.waitingFinish_onMessage key w).1 ▸ h, hmsgDb, hackFin, fun a ha => ?_,
    fun a ha => ?_⟩, hacks, hfins, hcount⟩
  · obtain ⟨c, hc, hack⟩ := mem_ackedIds.mp ha
    exact mem_ackedIds.mpr ⟨c, List.mem_cons_of_mem _ hc, hack⟩
  · refine ⟨s.call_acks_pos key w a ha, ?_⟩
    rw [call_taken]
    exact List.mem_append_left _ ha
  · rw [call_taken] at ha
    rcases List.mem_append.mp ha with ha | ha
    · exact .inr (.inl ha)
    · exact .inl ha

/-- **A call of `OnMessage`.** -/
theorem call_effect (hh : Honest B N M sent orig) (hledger : s.Ledger N orig)
    (hcontrols : s.Controls N)
    (hpassed : ∀ k w, (k, w) ∈ s.history.passed → ∃ v, (k, v) ∈ sent ∧ w = v.map some) {key : Str}
    {v : List Byte} (hkv : (key, v) ∈ sent) :
    Effect s (s.call key (v.map some)) ∧ (s.call key (v.map some)).state.Controls N := by
  have hN := hh.N_lt
  by_cases hack : key = kAckKey
  · subst hack
    obtain ⟨a, ha, rfl⟩ := hh.acks v hkv
    have hM := hh.M_lt
    have hle := (Finset.mem_Icc.mp ha).2
    have hcard : (ackedIds s.history.passed).card + 1 < 2 ^ 64 := by
      have hle := Finset.card_le_card (ackedIds_le hh hpassed)
      rw [Nat.card_Icc] at hle
      omega
    have hids : ackedIds ((kAckKey, (toDecimal a).map some) :: s.history.passed) =
        insert a (ackedIds s.history.passed) := ackedIds_cons (callAck_toDecimal (by omega))
    obtain ⟨hnew, hrep⟩ := SegmentTree.insert_eq hcontrols.acks (by omega : a + 1 < 2 ^ 64)
      fun _ => hcard
    refine s.call_effect_of (s.channel.onMessage_ack (by omega)) id
      (fun _ => receivedIds_cons_of_none (if_pos (.inl rfl))) (fun hquiet => ⟨?_, rfl⟩)
      (hids ▸ hrep) ?_ hcontrols.count
    · rw [hids, Finset.insert_eq_self]
      by_contra hnot
      rw [hnew, decide_eq_true hnot] at hquiet
      exact hquiet rfl
    · rw [List.map_cons, List.mem_cons]
      have hne : kFinKey ≠ kAckKey := by decide
      exact hcontrols.fin.trans (or_iff_right hne).symm
  have hnoAck : ackedIds ((key, v.map some) :: s.history.passed) = ackedIds s.history.passed :=
    ackedIds_cons_of_none (if_neg hack)
  by_cases hfin : key = kFinKey
  · subst hfin
    obtain rfl := hh.fins v hkv
    have hcons : receivedIds ((kFinKey, (toDecimal N).map some) :: s.history.passed) =
        receivedIds s.history.passed := receivedIds_cons_of_none (if_pos (.inr rfl))
    cases hreceived : s.channel.receivedFin with
    | true =>
      exact s.call_effect_of (s.channel.onMessage_fin_again hreceived _) id (fun _ => hcons)
        (fun _ => ⟨hnoAck, rfl⟩) (hnoAck.symm ▸ hcontrols.acks)
        ⟨fun _ => List.mem_cons_self, fun _ => hreceived⟩ hcontrols.count
    | false =>
      exact s.call_effect_of (s.channel.onMessage_fin hreceived (by omega)) (fun _ => rfl)
        (fun _ => hcons) (fun hquiet => absurd rfl hquiet) (hnoAck.symm ▸ hcontrols.acks)
        ⟨fun _ => List.mem_cons_self, fun _ => rfl⟩ fun _ => rfl
  · have hkey : ¬(key = kAckKey ∨ key = kFinKey) := not_or.mpr ⟨hack, hfin⟩
    obtain ⟨hacks, hfins, hcount⟩ := s.channel.onMessage_normal hkey (v.map some)
    obtain hc | ⟨msgKey, q, hcall, hsplit, hle, -⟩ := hh.classified _ hkv
    · exact absurd hc hkey
    refine s.call_effect_of rfl (fun h => hfins.trans h) (fun hquiet => ?_)
      (fun _ => ⟨hnoAck, hfins⟩) (hacks ▸ hnoAck.symm ▸ hcontrols.acks) ?_
      fun h => hcount.trans (hcontrols.count (hfins ▸ h))
    · ext q'
      rw [mem_receivedIds_cons, hcall, Option.some_inj]
      refine or_iff_right_of_imp ?_
      rintro ⟨hpos, rfl⟩
      rcases s.channel.onMessage_quiet hkey hsplit hquiet with hthrow | ⟨-, hold⟩
      · -- the message would have been rejected
        have hthrown := (hledger.call hN (hh.classified _ hkv)).thrown_eq hh
        dsimp only [call] at hthrown
        rw [filterMap_thrown_some hcall, if_pos hthrow] at hthrown
        nomatch hthrown
      · have hinsert := (SegmentTree.insert_eq hledger.store.ids (by omega : q + 1 < 2 ^ 64)
          fun _ => hledger.store.card_lt hN).1
        by_contra hnot
        rw [hold, decide_eq_true hnot] at hinsert
        nomatch hinsert
    · rw [hfins, List.map_cons, List.mem_cons]
      exact hcontrols.fin.trans (or_iff_right fun h => hfin h.symm).symm

/-! ### Events -/

/-- Only the requests that came and what is in the inbox have changed before the call. -/
theorem of_effect_inbox {b : Inbox} {delivered : List Request} {o : Outcome Receiver}
    (h : Effect { s with inbox := b, history := { s.history with delivered := delivered } } o)
    (hsub : s.history.delivered ⊆ delivered) : Effect s o :=
  { h with delivered := fun _ hr => h.delivered (hsub hr) }

theorem effect_self (s : Receiver) (notified : Option Cond) (exception : Option Exception) :
    Effect s ⟨s, [], notified, exception⟩ where
  delivered := fun _ h => h
  received := fun _ h => h
  acked := fun _ h => h
  fin := id
  waiting := id
  msgDb _ := rfl
  ackFin _ := ⟨rfl, rfl⟩
  acks _ ha := absurd ha List.not_mem_nil
  taken _ ha := .inl ha

theorem take_effect {msgKey : Str} {v : Memory} {q : ℕ} {c : Channel}
    (htake : s.channel.take msgKey = some ((v, q), c)) :
    Effect s ⟨{ s with
        channel := c
        history := { s.history with returned := (msgKey, v, q) :: s.history.returned } },
      Channel.sendAck q, none, none⟩ ∧
      ∀ N, s.Controls N → Controls { s with
        channel := c
        history := { s.history with returned := (msgKey, v, q) :: s.history.returned } } N := by
  rw [Channel.take, Option.map_eq_some_iff] at htake
  obtain ⟨entry, -, heq⟩ := htake
  obtain ⟨-, rfl⟩ := Prod.mk.inj heq
  refine ⟨{ s.effect_self none none with acks := ?_, taken := ?_ },
    fun N h => ⟨h.acks, h.fin, h.count⟩⟩
  · intro a ha
    obtain ⟨hpos, rfl⟩ := mem_sendAck.mp ha
    exact ⟨hpos, List.mem_append_right _ List.mem_cons_self⟩
  · intro a ha
    rcases List.mem_append.mp ha with ha | ha
    · exact .inl (List.mem_append_left _ ha)
    · rcases List.mem_cons.mp ha with rfl | ha
      · rcases Nat.eq_zero_or_pos a with hzero | hpos
        · exact .inr (.inr hzero)
        · exact .inr (.inl (mem_sendAck.mpr ⟨hpos, rfl⟩))
      · exact .inl (List.mem_append_right _ ha)

theorem stop_effect (s : Receiver) : Effect s (s.step .stop) := by
  refine { s.effect_self none none with waiting := fun _ => rfl, acks := ?_, taken := ?_ }
  · intro a ha
    obtain ⟨e, -, hack⟩ := List.mem_flatMap.mp ha
    exact ⟨(mem_sendAck.mp hack).1, List.mem_append_left _ (List.mem_append_left _ ha)⟩
  · intro a ha
    rcases List.mem_append.mp ha with ha | ha
    · rcases List.mem_append.mp ha with ha | ha
      · exact .inr (.inl ha)
      · exact .inl (List.mem_append_left _ ha)
    · exact .inl (List.mem_append_right _ ha)

/-- **The effect of an event.** -/
theorem Inv.effect (h : s.Inv B N sent orig) (hh : Honest B N M sent orig)
    (hcontrols : s.Controls N) {ev : Event} (hev : ev.Allowed B sent) :
    Effect s (s.step ev) ∧ (s.step ev).state.Controls N := by
  have hpassed : ∀ k w, (k, w) ∈ s.history.passed → ∃ v, (k, v) ∈ sent ∧ w = v.map some := by
    intro k w hkw
    obtain ⟨v, hkv, hw, -⟩ := h.inbox.calls k w (List.mem_append_right _ hkw)
    exact ⟨v, hkv, hw⟩
  have hcall : ∀ (b : Inbox) (delivered : List Request) (key : Str) (w : Memory),
      s.history.delivered ⊆ delivered → (∃ v, (key, v) ∈ sent ∧ w = v.map some) →
      Effect s (Receiver.call { s with
        inbox := b
        history := { s.history with delivered := delivered } } key w) ∧
      (Receiver.call { s with
        inbox := b
        history := { s.history with delivered := delivered } } key w).state.Controls N := by
    rintro b delivered key - hsub ⟨v, hkv, rfl⟩
    have heffect := call_effect
      (s := { s with inbox := b, history := { s.history with delivered := delivered } }) hh
      ⟨h.ledger.store, h.ledger.returned, h.ledger.thrown, h.ledger.acked⟩
      ⟨hcontrols.acks, hcontrols.fin, hcontrols.count⟩ hpassed hkv
    exact ⟨of_effect_inbox heffect.1 hsub, heffect.2⟩
  cases ev with
  | request r =>
    obtain ⟨⟨k, v⟩, ht, hr⟩ := hev
    obtain ⟨b', call, hreq, hinbox⟩ := h.inbox.onRequest hh.sent_valid hh.bytesPerChunk_pos ht hr
    rw [Receiver.step, hreq]
    rcases call with - | ⟨key, w⟩
    · exact ⟨of_effect_inbox (effect_self _ _ _) (List.subset_cons_self _ _),
        hcontrols.acks, hcontrols.fin, hcontrols.count⟩
    · obtain ⟨v, hkv, hw, -⟩ := hinbox.calls key w (List.mem_append_right _ List.mem_cons_self)
      exact hcall b' _ key w (List.subset_cons_self _ _) ⟨v, hkv, hw⟩
  | passOn i =>
    rw [Receiver.step]
    cases hi : s.inbox.handlers[i]? with
    | none => exact ⟨effect_self _ _ _, hcontrols⟩
    | some c =>
      obtain ⟨key, w⟩ := c
      obtain ⟨v, hkv, hw, -⟩ := h.inbox.calls key w
        (List.mem_append_left _ (List.mem_of_getElem? hi))
      exact hcall _ _ key w (List.Subset.refl _) ⟨v, hkv, hw⟩
  | recv msgKey =>
    rw [Receiver.step]
    cases normalMessageKeyEnforce msgKey with
    | error err => exact ⟨effect_self _ _ _, hcontrols⟩
    | ok =>
      cases htake : s.channel.take msgKey with
      | none => exact ⟨effect_self _ _ _, hcontrols⟩
      | some entry =>
        obtain ⟨heffect, hc⟩ := take_effect htake
        exact ⟨heffect, hc N hcontrols⟩
  | stop => exact ⟨s.stop_effect, hcontrols.acks, hcontrols.fin, hcontrols.count⟩

theorem request_delivered (s : Receiver) (r : Request) :
    (s.step (.request r)).state.history.delivered = r :: s.history.delivered := by
  rw [Receiver.step]
  split <;> rfl

end Receiver

end Yacl.Link
