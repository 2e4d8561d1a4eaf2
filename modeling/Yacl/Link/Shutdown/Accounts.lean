import Yacl.Link.Controls
import Yacl.Link.Shutdown.System

/-!
# The accounts of a channel

Where the messages of one side are, at any time of a run. A message is in the queue, or each of its
requests was delivered or is still in the hands of a task (`Endpoint.Outgoing`). The side
acknowledges what it has received, and everything that it has taken in is acknowledged or about to
be (`Endpoint.Announced`). Together with the bound on the numbers of the peer this makes the side an
honest peer (`Endpoint.honest`), so the results on the receiving half hold for the other side.
-/

open Bytes

namespace Yacl.Link.Shutdown

/-! ### Phases -/

/-- How far the thread of the user is. -/
def MainPc.phase : MainPc → ℕ
  | .running => 0
  | .stop => 1
  | .fin => 2
  | .waitFin _ => 3
  | .waitMsgs _ => 4
  | .stopSend => 5
  | .emptyNotify => 6
  | .join => 7
  | .waitSend _ => 8
  | .waitAck _ => 9
  | .done => 10

theorem MainPc.phase_notify (pc : MainPc) (cond : Option Cond) :
    (cond.elim pc pc.notify).phase = pc.phase := by
  rcases cond with - | - | - <;> cases pc <;> rfl

/-! ### The accounts -/

namespace Endpoint

/-- Everything that this side has sent or is going to send. -/
def sent (e : Endpoint) : List (Str × List Byte) :=
  e.sender.msgs.mapIdx (fun i m => (e.sender.channelKey i m, m.value)) ++
    (buildChannelKey e.sender.testKey 0, []) :: e.controls

/-- A message of the user in the queue. -/
def entry (e : Endpoint) (i : ℕ) (m : Msg) : Str × List Byte × ℕ :=
  (e.sender.channelKey i m, m.value, e.sender.seqId i)

/-- Every request of the message was delivered, or is in the hands of a task. -/
def Pending (e : Endpoint) (s : Receiver) (t : Str × List Byte) : Prop :=
  ∀ r ∈ sendImpl e.sender.bytesPerChunk t.1 t.2,
    r ∈ s.history.delivered ∨ ∃ task ∈ e.tasks, r ∈ task

/-- **The sending half** of a side; `s` is the receiving half of the other side. -/
structure Outgoing (e : Endpoint) (s : Receiver) : Prop where
  bytesPerChunk_eq : e.sender.bytesPerChunk = e.config.bytesPerChunk
  seqIds : e.sender.disableMsgSeqId = false
  msgs_le : e.sender.msgs.length ≤ e.config.maxMsgs
  keys_ne : ∀ m ∈ e.sender.msgs, m.key ≠ e.sender.testKey
  queue_sorted : (e.queue.map (·.2.2)).Pairwise (· < ·)
  queue_mem : ∀ x ∈ e.queue, ∃ i m, e.sender.msgs[i]? = some m ∧ x = e.entry i m
  tasks_sent : ∀ task ∈ e.tasks, ∀ r ∈ task, ∃ t ∈ e.sent,
    r ∈ sendImpl e.sender.bytesPerChunk t.1 t.2
  msgs_pending : ∀ i m, e.sender.msgs[i]? = some m →
    e.entry i m ∈ e.queue ∨ e.Pending s (e.sender.channelKey i m, m.value)
  controls_pending : ∀ t ∈ e.controls, e.Pending s t
  inv : s.Inv e.sender.bytesPerChunk e.sender.msgs.length e.sent e.sender.Orig
  controls : s.Controls e.sender.msgs.length

/-- **What this side has announced**: acknowledgements for messages that it has received, and its
last message; and everything that it has taken in is acknowledged, or about to be. -/
structure Announced (e : Endpoint) : Prop where
  controls_eq : ∀ t ∈ e.controls,
    (∃ a ∈ receivedIds e.receiver.history.passed, t = (kAckKey, toDecimal a)) ∨
      3 ≤ e.main.phase ∧ t = (kFinKey, toDecimal e.sender.msgs.length)
  fin : 3 ≤ e.main.phase → (kFinKey, toDecimal e.sender.msgs.length) ∈ e.controls
  taken : ∀ a ∈ e.receiver.taken, 0 < a → a ∈ e.acking ∨ (kAckKey, toDecimal a) ∈ e.controls
  acking_received : ∀ a ∈ e.acking, a ∈ receivedIds e.receiver.history.passed

variable {e : Endpoint} {s : Receiver}

/-! ### Honesty -/

theorem mem_sent {t : Str × List Byte} :
    t ∈ e.sent ↔ (∃ i m, e.sender.msgs[i]? = some m ∧ t = (e.sender.channelKey i m, m.value)) ∨
      t = (buildChannelKey e.sender.testKey 0, []) ∨ t ∈ e.controls := by
  rw [sent, List.mem_append, List.mem_cons, List.mem_mapIdx]
  refine or_congr_left ⟨?_, ?_⟩
  · rintro ⟨i, hi, rfl⟩
    exact ⟨i, e.sender.msgs[i], List.getElem?_eq_getElem hi, rfl⟩
  · rintro ⟨i, m, hm, rfl⟩
    obtain ⟨hi, rfl⟩ := List.getElem?_eq_some_iff.mp hm
    exact ⟨i, hi, rfl⟩

/-- Only what was submitted as an acknowledgement or a last message looks like one. -/
theorem mem_controls {k : Str} {v : List Byte} (hk : k = kAckKey ∨ k = kFinKey)
    (hkv : (k, v) ∈ e.sent) : (k, v) ∈ e.controls := by
  rcases mem_sent.mp hkv with ⟨i, m, -, heq⟩ | heq | hc
  · exact absurd ((Prod.mk.inj heq).1 ▸ hk) Sender.channelKey_ne
  · rw [(Prod.mk.inj heq).1] at hk
    exact absurd hk (buildChannelKey_ne _ _)
  · exact hc

theorem length_toDecimal_le {a k : ℕ} (ha : a < 10 ^ k) (hk : 1 ≤ k) :
    (toDecimal a).length ≤ k := by
  rw [toDecimal]
  split
  · exact hk
  · rw [List.length_reverse, List.length_map]
    exact (Nat.digits_length_le_iff (by decide) a).mpr ha

theorem Announced.controls_key (h : e.Announced) :
    ∀ t ∈ e.controls, t.1 = kAckKey ∨ t.1 = kFinKey := by
  intro t ht
  rcases h.controls_eq t ht with ⟨a, -, rfl⟩ | ⟨-, rfl⟩
  · exact .inl rfl
  · exact .inr rfl

theorem Announced.controls_valid (h : e.Announced) {M : ℕ}
    (hids : ∀ a ∈ receivedIds e.receiver.history.passed, a ≤ M)
    (hM : M ≤ 10 ^ e.sender.bytesPerChunk) (hM' : M + 1 < 2 ^ 64) :
    SentValid e.sender.bytesPerChunk e.controls := by
  have hlen := e.sender.length_lt
  constructor
  · intro t ht
    have hlong : ∀ a < 2 ^ 64, (toDecimal a).length < 2 ^ 63 := by
      intro a ha
      have hle := length_toDecimal_le (k := 20) (lt_trans ha (by decide)) (by decide)
      omega
    rcases h.controls_eq t ht with ⟨a, ha, rfl⟩ | ⟨-, rfl⟩
    · have hle := hids a ha
      exact hlong a (by omega)
    · exact hlong _ (by omega)
  · intro k v v' hv hv' hlt hlt'
    have hack : ∀ a ∈ receivedIds e.receiver.history.passed,
        e.sender.bytesPerChunk < (toDecimal a).length → a = M := by
      intro a ha hlong
      have hle := hids a ha
      by_contra hne
      have hshort := length_toDecimal_le (lt_of_lt_of_le (by omega : a < M) hM)
        e.sender.bytesPerChunk_pos
      omega
    have hne : kAckKey ≠ kFinKey := by decide
    rcases h.controls_eq _ hv with ⟨a, ha, heq⟩ | ⟨-, heq⟩ <;>
      rcases h.controls_eq _ hv' with ⟨a', ha', heq'⟩ | ⟨-, heq'⟩
    · obtain ⟨rfl, rfl⟩ := Prod.mk.inj heq
      obtain ⟨-, rfl⟩ := Prod.mk.inj heq'
      rw [hack a ha hlt, hack a' ha' hlt']
    · exact absurd ((Prod.mk.inj heq).1.symm.trans (Prod.mk.inj heq').1) hne
    · exact absurd ((Prod.mk.inj heq').1.symm.trans (Prod.mk.inj heq).1) hne
    · exact (Prod.mk.inj heq).2.trans (Prod.mk.inj heq').2.symm

/-- **This side is an honest peer.** -/
theorem honest (hkeys : ∀ m ∈ e.sender.msgs, m.key ≠ e.sender.testKey) (h : e.Announced) {M : ℕ}
    (hids : ∀ a ∈ receivedIds e.receiver.history.passed, a ≤ M)
    (hM : M ≤ 10 ^ e.sender.bytesPerChunk) (hM' : M + 1 < 2 ^ 64) :
    Honest e.sender.bytesPerChunk e.sender.msgs.length M e.sent e.sender.Orig := by
  let p : Peer :=
    { e.sender with
      controls := e.controls
      controls_key := h.controls_key
      controls_valid := h.controls_valid hids hM hM' }
  have hne : kAckKey ≠ kFinKey := by decide
  refine ⟨e.sender.bytesPerChunk_pos, p.sentValid, p.classified, fun v hv => ?_, fun v hv => ?_, ?_,
    e.sender.length_lt, hM'⟩
  · rcases h.controls_eq _ (mem_controls (.inl rfl) hv) with ⟨a, ha, heq⟩ | ⟨-, heq⟩
    · exact ⟨a, Finset.mem_Icc.mpr ⟨(mem_receivedIds.mp ha).1, hids a ha⟩, (Prod.mk.inj heq).2⟩
    · exact absurd (Prod.mk.inj heq).1 hne
  · rcases h.controls_eq _ (mem_controls (.inr rfl) hv) with ⟨a, -, heq⟩ | ⟨-, heq⟩
    · exact absurd (Prod.mk.inj heq).1.symm hne
    · exact (Prod.mk.inj heq).2
  · intro k v v' q q' hpos hv hv'
    rcases hv with ⟨i, m, hm, rfl, rfl, rfl⟩ | ⟨-, -, hzero⟩
    · rcases hv' with ⟨j, m', hm', hkey, -, rfl⟩ | ⟨hkey, -⟩
      · rw [(Sender.eq_of_key_eq hm hm' hkey).1]
      · exact absurd hkey (hkeys m (List.mem_of_getElem? hm))
    · omega

/-! ### What happens to the sending half -/

theorem Outgoing.congr {e' : Endpoint} (h : e.Outgoing s) (hconfig : e'.config = e.config)
    (hsender : e'.sender = e.sender) (hqueue : e'.queue = e.queue) (htasks : e'.tasks = e.tasks)
    (hcontrols : e'.controls = e.controls) : e'.Outgoing s := by
  obtain ⟨config', sender', _, queue', _, _, _, tasks', _, _, controls'⟩ := e'
  subst hconfig hsender hqueue htasks hcontrols
  exact ⟨h.bytesPerChunk_eq, h.seqIds, h.msgs_le, h.keys_ne, h.queue_sorted, h.queue_mem,
    h.tasks_sent, h.msgs_pending, h.controls_pending, h.inv, h.controls⟩

/-- **An event at the other side.** -/
theorem Outgoing.event (h : e.Outgoing s) {M : ℕ}
    (hh : Honest e.sender.bytesPerChunk e.sender.msgs.length M e.sent e.sender.Orig) {ev : Event}
    (hev : ev.Allowed e.sender.bytesPerChunk e.sent) :
    Effect s (s.step ev) ∧ e.Outgoing (s.step ev).state := by
  obtain ⟨heffect, hcontrols⟩ := h.inv.effect hh h.controls hev
  have hpending : ∀ t, e.Pending s t → e.Pending (s.step ev).state t := by
    intro t ht r hr
    exact (ht r hr).imp_left fun hd => heffect.delivered hd
  exact ⟨heffect,
    { h with
      msgs_pending := fun i m hm => (h.msgs_pending i m hm).imp_right (hpending _)
      controls_pending := fun t ht => hpending t (h.controls_pending t ht)
      inv := h.inv.step hh.sent_valid hh.classified hh.bytesPerChunk_pos hh.N_lt hev
      controls := hcontrols }⟩

/-- **Acknowledgements or a last message are submitted.** -/
theorem Outgoing.submitControls (h : e.Outgoing s) (extra controls : List (Str × List Byte))
    (hmem : ∀ t, t ∈ controls ↔ t ∈ extra ∨ t ∈ e.controls)
    (hvalid : SentValid e.sender.bytesPerChunk { e with controls := controls }.sent) :
    Outgoing { e with
      tasks := e.tasks ++ extra.map fun t => sendImpl e.sender.bytesPerChunk t.1 t.2
      controls := controls } s := by
  have hsub : ∀ t ∈ e.sent, t ∈ { e with controls := controls }.sent := by
    intro t ht
    rw [mem_sent] at ht ⊢
    exact ht.imp_right (Or.imp_right fun hc => (hmem t).mpr (.inr hc))
  have hpending : ∀ t, e.Pending s t → Pending { e with
      tasks := e.tasks ++ extra.map fun t => sendImpl e.sender.bytesPerChunk t.1 t.2
      controls := controls } s t := by
    intro t ht r hr
    refine (ht r hr).imp_right ?_
    rintro ⟨task, htask, hrt⟩
    exact ⟨task, List.mem_append_left _ htask, hrt⟩
  refine ⟨h.bytesPerChunk_eq, h.seqIds, h.msgs_le, h.keys_ne, h.queue_sorted, h.queue_mem, ?_,
    fun i m hm => (h.msgs_pending i m hm).imp_right (hpending _), ?_, ?_, h.controls⟩
  · intro task htask r hr
    rcases List.mem_append.mp htask with htask | htask
    · obtain ⟨t, ht, hrt⟩ := h.tasks_sent task htask r hr
      exact ⟨t, hsub t ht, hrt⟩
    · obtain ⟨t, ht, rfl⟩ := List.mem_map.mp htask
      exact ⟨t, mem_sent.mpr (.inr (.inr ((hmem t).mpr (.inl ht)))), hr⟩
  · intro t ht
    rcases (hmem t).mp ht with ht | ht
    · exact fun r hr => .inr ⟨_, List.mem_append_right _ (List.mem_map_of_mem ht), hr⟩
    · exact hpending t (h.controls_pending t ht)
  · exact ⟨h.inv.inbox.mono_sent hsub hvalid, h.inv.ledger⟩

/-- **A request was delivered**, and leaves its task. -/
theorem Outgoing.deliver (h : e.Outgoing s) {i j : ℕ} {requests : List Request} {r : Request}
    (hi : e.tasks[i]? = some requests) (hj : requests[j]? = some r)
    (hr : r ∈ s.history.delivered) :
    Outgoing { e with tasks := e.tasks.set i (requests.eraseIdx j) } s := by
  have hset : (e.tasks.set i (requests.eraseIdx j))[i]? = some (requests.eraseIdx j) :=
    List.getElem?_set_self (List.getElem?_eq_some_iff.mp hi).1
  have hpending : ∀ t, e.Pending s t →
      Pending { e with tasks := e.tasks.set i (requests.eraseIdx j) } s t := by
    intro t ht r' hr'
    rcases ht r' hr' with hd | ⟨task, htask, hrt⟩
    · exact .inl hd
    · by_cases hrr : r' = r
      · exact .inl (hrr ▸ hr)
      refine .inr ?_
      obtain ⟨k, hk⟩ := List.mem_iff_getElem?.mp htask
      by_cases hik : i = k
      · subst hik
        rw [hi] at hk
        obtain rfl := Option.some_inj.mp hk
        have hmem := (cons_eraseIdx_perm hj).mem_iff.mpr hrt
        exact ⟨_, List.mem_of_getElem? hset, (List.mem_cons.mp hmem).resolve_left hrr⟩
      · refine ⟨task, List.mem_of_getElem? (i := k) ?_, hrt⟩
        rw [List.getElem?_set_ne hik, hk]
  refine { h with
    tasks_sent := fun task htask r' hr' => ?_
    msgs_pending := fun i m hm => (h.msgs_pending i m hm).imp_right (hpending _)
    controls_pending := fun t ht => hpending t (h.controls_pending t ht) }
  rcases List.mem_or_eq_of_mem_set htask with htask | rfl
  · exact h.tasks_sent task htask r' hr'
  · exact h.tasks_sent requests (List.mem_of_getElem? hi) r' (List.mem_of_mem_eraseIdx hr')

/-- **A task ends.** -/
theorem Outgoing.taskDone (h : e.Outgoing s) {i : ℕ} (hi : e.tasks[i]? = some []) :
    Outgoing { e with tasks := e.tasks.eraseIdx i } s := by
  have hpending : ∀ t, e.Pending s t →
      Pending { e with tasks := e.tasks.eraseIdx i } s t := by
    intro t ht r hr
    refine (ht r hr).imp_right ?_
    rintro ⟨task, htask, hrt⟩
    refine ⟨task, ?_, hrt⟩
    have hmem := (cons_eraseIdx_perm hi).mem_iff.mpr htask
    refine (List.mem_cons.mp hmem).resolve_left ?_
    rintro rfl
    exact absurd hrt List.not_mem_nil
  exact { h with
    tasks_sent := fun task htask => h.tasks_sent task (List.mem_of_mem_eraseIdx htask)
    msgs_pending := fun i m hm => (h.msgs_pending i m hm).imp_right (hpending _)
    controls_pending := fun t ht => hpending t (h.controls_pending t ht) }

/-- **A message leaves the queue** and is submitted. -/
theorem Outgoing.take (h : e.Outgoing s) {key : Str} {value : List Byte} {q : ℕ}
    {queue : List (Str × List Byte × ℕ)} (hqueue : e.queue = (key, value, q) :: queue) :
    Outgoing { e.submit key value with queue := queue } s ∧ q ≤ e.sender.msgs.length ∧
      ∀ x ∈ queue, q < x.2.2 := by
  have hsorted := h.queue_sorted
  rw [hqueue, List.map_cons, List.pairwise_cons] at hsorted
  obtain ⟨i, m, hm, heq⟩ := h.queue_mem (key, value, q) (hqueue ▸ List.mem_cons_self)
  obtain ⟨rfl, hrest⟩ := Prod.mk.inj heq
  obtain ⟨rfl, rfl⟩ := Prod.mk.inj hrest
  have hpending : ∀ t, e.Pending s t →
      Pending { e.submit (e.sender.channelKey i m) m.value with queue := queue } s t := by
    intro t ht r hr
    refine (ht r hr).imp_right ?_
    rintro ⟨task, htask, hrt⟩
    exact ⟨task, List.mem_append_left _ htask, hrt⟩
  refine ⟨?_, ?_, ?_⟩
  · refine { h with
      queue_sorted := hsorted.2
      queue_mem := fun x hx => h.queue_mem x (hqueue ▸ List.mem_cons_of_mem _ hx)
      tasks_sent := fun task htask r hr => ?_
      msgs_pending := fun i' m' hm' => ?_
      controls_pending := fun t ht => hpending t (h.controls_pending t ht) }
    · rcases List.mem_append.mp htask with htask | htask
      · exact h.tasks_sent task htask r hr
      · obtain rfl := List.mem_singleton.mp htask
        exact ⟨_, mem_sent.mpr (.inl ⟨i, m, hm, rfl⟩), hr⟩
    · rcases h.msgs_pending i' m' hm' with hin | hp
      · rw [hqueue] at hin
        rcases List.mem_cons.mp hin with heq | hin
        · -- the message that was taken
          refine .inr fun r hr => .inr ⟨_, List.mem_append_right _ (List.mem_singleton_self _), ?_⟩
          obtain ⟨hkey, hrest⟩ := Prod.mk.inj heq
          obtain ⟨hvalue, -⟩ := Prod.mk.inj hrest
          have hkey' : e.sender.channelKey i' m' = e.sender.channelKey i m := hkey
          dsimp only [submit] at hr
          rwa [hkey', hvalue] at hr
        · exact .inl hin
      · exact .inr (hpending _ hp)
  · have hlt := Sender.index_lt hm
    rw [Sender.seqId, if_neg (by rw [h.seqIds]; decide)]
    omega
  · intro x hx
    exact hsorted.1 _ (List.mem_map_of_mem hx)

theorem Outgoing.mem_controls (h : e.Outgoing s) {k : Str} {w : Memory}
    (hk : k = kAckKey ∨ k = kFinKey) (hpassed : (k, w) ∈ s.history.passed) :
    ∃ v, w = v.map some ∧ (k, v) ∈ e.controls := by
  obtain ⟨v, hkv, rfl, -⟩ := h.inv.inbox.calls k w (List.mem_append_right _ hpassed)
  exact ⟨v, rfl, Endpoint.mem_controls hk hkv⟩

theorem Outgoing.phase_of_receivedFin (h : e.Outgoing s) (hannounced : e.Announced)
    (hfin : s.channel.receivedFin) : 3 ≤ e.main.phase := by
  obtain ⟨⟨k, w⟩, hmem, rfl⟩ := List.mem_map.mp (h.controls.fin.mp hfin)
  obtain ⟨v, -, hc⟩ := h.mem_controls (.inr rfl) hmem
  rcases hannounced.controls_eq _ hc with ⟨a, -, heq⟩ | ⟨hge, -⟩
  · exact absurd (Prod.mk.inj heq).1 (by decide)
  · exact hge

/-- **The user sends a message.** -/
theorem Outgoing.send (h : e.Outgoing s) (hannounced : e.Announced) (hphase : e.main.phase < 3)
    {M : ℕ} (hids : ∀ a ∈ receivedIds e.receiver.history.passed, a ≤ M)
    (hM : M ≤ 10 ^ e.sender.bytesPerChunk) (hM' : M + 1 < 2 ^ 64) {m : Msg}
    (hkey : m.key ∉ e.sender.msgs.map Msg.key) (hlen : e.sender.msgs.length + 2 < 2 ^ 64)
    (htest : m.key ≠ e.sender.testKey) (hlt : e.sender.msgs.length < e.config.maxMsgs) :
    (e.send m hkey hlen).Outgoing s ∧ (e.send m hkey hlen).Announced := by
  have hannounced' : (e.send m hkey hlen).Announced := by
    refine ⟨fun t ht => .inl ?_, fun hge => ?_, hannounced.taken, hannounced.acking_received⟩
    · refine (hannounced.controls_eq t ht).resolve_right fun hfin => ?_
      omega
    · exact absurd hge (by exact Nat.not_le.mpr hphase)
  have hmsgs : (e.send m hkey hlen).sender.msgs = e.sender.msgs ++ [m] := rfl
  have hkeys : ∀ m' ∈ e.sender.msgs ++ [m], m'.key ≠ e.sender.testKey := by
    intro m' hm'
    rcases List.mem_append.mp hm' with hm' | hm'
    · exact h.keys_ne m' hm'
    · rwa [List.mem_singleton.mp hm']
  have hvalid := (honest hkeys hannounced' hids hM hM').sent_valid
  have hold : ∀ (i : ℕ) (m' : Msg), e.sender.msgs[i]? = some m' →
      (e.sender.msgs ++ [m])[i]? = some m' := by
    intro i m' hm'
    rw [List.getElem?_append_left (Sender.index_lt hm')]
    exact hm'
  have hnew : (e.sender.msgs ++ [m])[e.sender.msgs.length]? = some m := by
    rw [List.getElem?_append_right le_rfl, Nat.sub_self]
    rfl
  have hsub : ∀ t ∈ e.sent, t ∈ (e.send m hkey hlen).sent := by
    intro t ht
    rw [mem_sent] at ht ⊢
    refine ht.imp_left ?_
    rintro ⟨i, m', hm', rfl⟩
    exact ⟨i, m', hold i m' hm', rfl⟩
  have hseq : ∀ x ∈ e.queue, x.2.2 < e.sender.seqId e.sender.msgs.length := by
    intro x hx
    obtain ⟨i, m', hm', rfl⟩ := h.queue_mem x hx
    have hi := Sender.index_lt hm'
    have hdis : ¬e.sender.disableMsgSeqId = true := by rw [h.seqIds]; decide
    rw [entry, Sender.seqId, Sender.seqId, if_neg hdis, if_neg hdis]
    exact Nat.succ_lt_succ hi
  refine ⟨?_, hannounced'⟩
  refine ⟨h.bytesPerChunk_eq, h.seqIds, ?_, hkeys, ?_, ?_, ?_, ?_, h.controls_pending, ?_, ?_⟩
  · rw [hmsgs, List.length_append]
    exact hlt
  · rw [Endpoint.send, List.map_append, List.pairwise_append]
    refine ⟨h.queue_sorted, List.pairwise_singleton _ _, ?_⟩
    intro a ha b hb
    obtain ⟨x, hx, rfl⟩ := List.mem_map.mp ha
    rw [List.map_singleton, List.mem_singleton] at hb
    exact hb ▸ hseq x hx
  · intro x hx
    rcases List.mem_append.mp hx with hx | hx
    · obtain ⟨i, m', hm', rfl⟩ := h.queue_mem x hx
      exact ⟨i, m', hold i m' hm', rfl⟩
    · obtain rfl := List.mem_singleton.mp hx
      exact ⟨e.sender.msgs.length, m, hnew, rfl⟩
  · intro task htask r hr
    obtain ⟨t, ht, hrt⟩ := h.tasks_sent task htask r hr
    exact ⟨t, hsub t ht, hrt⟩
  · intro i m' hm'
    rcases Nat.lt_or_ge i e.sender.msgs.length with hi | hi
    · rw [hmsgs, List.getElem?_append_left hi] at hm'
      exact (h.msgs_pending i m' hm').imp_left fun hq => List.mem_append_left _ hq
    · have hi' := Sender.index_lt hm'
      rw [hmsgs, List.length_append, List.length_singleton] at hi'
      obtain rfl : i = e.sender.msgs.length := by omega
      rw [hmsgs, hnew] at hm'
      obtain rfl := Option.some_inj.mp hm'
      exact .inl (List.mem_append_right _ (List.mem_singleton_self _))
  · refine h.inv.mono ?_ hsub hvalid ?_
    · rw [hmsgs, List.length_append]
      exact Nat.le_add_right _ _
    · rintro k v q (⟨i, m', hm', hrest⟩ | htest)
      · exact .inl ⟨i, m', hold i m' hm', hrest⟩
      · exact .inr htest
  · refine ⟨h.controls.acks, h.controls.fin, fun hfin => ?_⟩
    have hge := h.phase_of_receivedFin hannounced hfin
    omega

/-! ### What happens to the announcements -/

/-- **An event at this side.** -/
theorem Announced.apply (h : e.Announced) {o : Outcome Receiver} (heffect : Effect e.receiver o)
    (hacks : ∀ a ∈ o.acks, a ∈ receivedIds o.state.history.passed) : (e.apply o).Announced := by
  have hmem : ∀ t, t ∈ (o.acks.map fun a => (kAckKey, toDecimal a)).reverse ++ e.controls ↔
      (∃ a ∈ o.acks, t = (kAckKey, toDecimal a)) ∨ t ∈ e.controls := by
    intro t
    simp only [List.mem_append, List.mem_reverse, List.mem_map, eq_comm]
  rw [apply_eq]
  constructor
  · intro t ht
    rw [MainPc.phase_notify]
    rcases (hmem t).mp ht with ⟨a, ha, rfl⟩ | ht
    · exact .inl ⟨a, hacks a ha, rfl⟩
    · refine (h.controls_eq t ht).imp_left ?_
      rintro ⟨a, ha, rfl⟩
      exact ⟨a, heffect.received ha, rfl⟩
  · rw [MainPc.phase_notify]
    exact fun hge => (hmem _).mpr (.inr (h.fin hge))
  · intro a ha hpos
    rcases heffect.taken a ha with ha | ha | ha
    · exact (h.taken a ha hpos).imp_right fun hc => (hmem _).mpr (.inr hc)
    · exact .inr ((hmem _).mpr (.inl ⟨a, ha, rfl⟩))
    · omega
  · exact fun a ha => heffect.received (h.acking_received a ha)

end Endpoint

end Yacl.Link.Shutdown
