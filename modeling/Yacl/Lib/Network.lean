import Mathlib.Tactic
import Yacl.Lib.Loop

/-!
# Parties that exchange messages under keys

A **process** is the code of one party. It returns, throws, leaves a mark in the trace, sends a
message under a key to another party, or waits for the message that a given party sends under a
given key. Sending never waits. A message is in transit for a while and is then put into the mailbox
of its **slot**, which is given by the sender, the receiver and the key. A slot holds one message: a
message that arrives while another one is there is dropped. `Step` is one step of one party or of
the network, so that a `Run` is an arbitrary interleaving, and its labels are the trace.

The rules are for **straight-line** processes, whose actions do not depend on the messages that they
receive (`Proc.Shape`):

* a party performs a beginning of its actions (`Run.shape`);
* if no party repeats an action, nothing is dropped (`Run.drop_notMem`), and who has received a
  message has been sent one (`Run.send_mem_performed`);
* the number of steps is bounded (`Run.length_le`), so that every run goes on to one that is `Stuck`
  (`Run.exists_stuck`);
* if the actions have a **timetable**, in which every message is sent before it is received, then
  whatever the timetable completes has happened when a run is stuck (`Run.mem_performed`), and
  everything if all messages are received (`Run.completed`).

`Proc.Meets` is a rely and guarantee rule for the messages themselves (`Run.meets`) and for the
results of processes (`Proc.Shape.bind_of_meets`).
-/

open Loop

namespace Network

/-! ### Processes -/

/-- The code of one party, as a tree. A message has a receiver and a key, and a party that waits
names the sender and the key of the message that it takes. -/
inductive Proc (ι κ μ η ε α : Type) where
  /-- Return a result. -/
  | ret (a : α)
  /-- Throw an exception. -/
  | throw (e : ε)
  /-- Leave a mark in the trace. -/
  | mark (e : η) (next : Proc ι κ μ η ε α)
  /-- Send a message and go on. -/
  | send (dst : ι) (key : κ) (msg : μ) (next : Proc ι κ μ η ε α)
  /-- Wait for a message and go on with it. -/
  | recv (src : ι) (key : κ) (next : μ → Proc ι κ μ η ε α)

variable {ι κ μ η ε α β γ : Type}

namespace Proc

/-- Run a process, then another one with its result. -/
def bind : Proc ι κ μ η ε α → (α → Proc ι κ μ η ε β) → Proc ι κ μ η ε β
  | ret a, f => f a
  | throw e, _ => throw e
  | mark e p, f => mark e (p.bind f)
  | send dst key msg p, f => send dst key msg (p.bind f)
  | recv src key k, f => recv src key fun m => (k m).bind f

instance : Monad (Proc ι κ μ η ε) where
  pure := ret
  bind := bind

theorem bind_bind (p : Proc ι κ μ η ε α) (f : α → Proc ι κ μ η ε β) (g : β → Proc ι κ μ η ε γ) :
    (p >>= f) >>= g = p >>= fun a => f a >>= g := by
  induction p with
  | ret a => rfl
  | throw e => rfl
  | mark e p ih => exact congrArg (mark e) ih
  | send dst key msg p ih => exact congrArg (send dst key msg) ih
  | recv src key k ih => exact congrArg (recv src key) (funext ih)

/-- Leave one mark. -/
def markEvent (e : η) : Proc ι κ μ η ε Unit := mark e (ret ())

/-- Send one message. -/
def sendMsg (dst : ι) (key : κ) (msg : μ) : Proc ι κ μ η ε Unit := send dst key msg (ret ())

/-- Receive one message. -/
def recvMsg (src : ι) (key : κ) : Proc ι κ μ η ε μ := recv src key ret

/-- A computation that neither sends nor receives. -/
def ofExcept : Except ε α → Proc ι κ μ η ε α
  | .ok a => ret a
  | .error e => throw e

end Proc

/-! ### Interleavings -/

/-- The place of a message in the mailbox of its receiver. -/
structure Slot (ι κ : Type) where
  src : ι
  dst : ι
  key : κ
deriving DecidableEq

/-- A message on its way. -/
structure Envelope (ι κ μ : Type) where
  slot : Slot ι κ
  msg : μ

/-- The parties and the network. Messages in transit arrive in any order; the mailbox keeps one
message for each sender, receiver and key. -/
structure Config (ι κ μ η ε α : Type) where
  procs : ι → Proc ι κ μ η ε α
  transit : List (Envelope ι κ μ)
  mailbox : Slot ι κ → Option μ

/-- Parties that have not done anything yet. -/
def Config.start (procs : ι → Proc ι κ μ η ε α) : Config ι κ μ η ε α := ⟨procs, [], fun _ => none⟩

/-- What a step does. -/
inductive Label (ι κ μ η : Type) where
  | mark (i : ι) (e : η)
  | send (e : Envelope ι κ μ)
  | deliver (e : Envelope ι κ μ)
  | drop (e : Envelope ι κ μ)
  | recv (e : Envelope ι κ μ)

variable [DecidableEq ι] [DecidableEq κ]

/-- One step of a party, or the arrival of a message. -/
inductive Step : Config ι κ μ η ε α → Label ι κ μ η → Config ι κ μ η ε α → Prop
  | mark {c i e p} (h : c.procs i = .mark e p) :
    Step c (.mark i e) { c with procs := Function.update c.procs i p }
  | send {c i dst key msg p} (h : c.procs i = .send dst key msg p) :
    Step c (.send ⟨⟨i, dst, key⟩, msg⟩)
      { c with
        procs := Function.update c.procs i p
        transit := ⟨⟨i, dst, key⟩, msg⟩ :: c.transit }
  | deliver {c e l₁ l₂} (h : c.transit = l₁ ++ e :: l₂) (hfree : c.mailbox e.slot = none) :
    Step c (.deliver e)
      { c with
        transit := l₁ ++ l₂
        mailbox := Function.update c.mailbox e.slot (some e.msg) }
  | drop {c e l₁ l₂} (h : c.transit = l₁ ++ e :: l₂) (hfull : c.mailbox e.slot ≠ none) :
    Step c (.drop e) { c with transit := l₁ ++ l₂ }
  | recv {c i src key next m} (h : c.procs i = .recv src key next)
      (hm : c.mailbox ⟨src, i, key⟩ = some m) :
    Step c (.recv ⟨⟨src, i, key⟩, m⟩)
      { c with
        procs := Function.update c.procs i (next m)
        mailbox := Function.update c.mailbox ⟨src, i, key⟩ none }

/-- A run with its trace. -/
inductive Run : Config ι κ μ η ε α → List (Label ι κ μ η) → Config ι κ μ η ε α → Prop
  | nil (c) : Run c [] c
  | snoc {c tr c' l c''} (h : Run c tr c') (hs : Step c' l c'') : Run c (tr ++ [l]) c''

/-- No step is possible. -/
def Stuck (c : Config ι κ μ η ε α) : Prop := ∀ l c', ¬Step c l c'

variable {c c' : Config ι κ μ η ε α}

theorem Run.left {l₁ l₂ : List (Label ι κ μ η)} (h : Run c (l₁ ++ l₂) c') : ∃ c₁, Run c l₁ c₁ := by
  induction l₂ using List.reverseRecOn generalizing c' with
  | nil => exact ⟨c', by rwa [List.append_nil] at h⟩
  | append_singleton l₂ l ih =>
    generalize htr : l₁ ++ (l₂ ++ [l]) = tr at h
    cases h with
    | nil => simp at htr
    | snoc h hs =>
      rw [← List.append_assoc] at htr
      obtain ⟨rfl, -⟩ := List.append_inj' htr rfl
      exact ih h

/-! ### Actions -/

/-- What a party does in a step, without the message. -/
inductive Action (ι κ η : Type) where
  | mark (e : η)
  | send (dst : ι) (key : κ)
  | recv (src : ι) (key : κ)
deriving DecidableEq

/-- The action of party `i` in a step, if it is the one that acts. -/
def Label.actionOf (i : ι) : Label ι κ μ η → Option (Action ι κ η)
  | mark j e => if j = i then some (.mark e) else none
  | send e => if e.slot.src = i then some (.send e.slot.dst e.slot.key) else none
  | recv e => if e.slot.dst = i then some (.recv e.slot.src e.slot.key) else none
  | deliver _ => none
  | drop _ => none

/-- The actions of party `i` in a trace. -/
def performed (i : ι) (tr : List (Label ι κ μ η)) : List (Action ι κ η) :=
  tr.filterMap (Label.actionOf i)

omit [DecidableEq κ] in
theorem performed_snoc (i : ι) (tr : List (Label ι κ μ η)) (l : Label ι κ μ η) :
    performed i (tr ++ [l]) = performed i tr ++ (l.actionOf i).toList := by
  rw [performed, List.filterMap_append]
  cases h : l.actionOf i <;> simp [performed, h]

variable {i : ι} {tr : List (Label ι κ μ η)}

omit [DecidableEq κ] in
theorem mark_mem_performed {e : η} : .mark e ∈ performed i tr ↔ Label.mark i e ∈ tr := by
  rw [performed, List.mem_filterMap]
  constructor
  · rintro ⟨l, hl, h⟩
    cases l with
    | mark j e' =>
      rw [Label.actionOf] at h
      split at h
      · next hj => rwa [← hj, ← Action.mark.inj (Option.some.inj h)]
      · contradiction
    | send e' => simp [Label.actionOf] at h
    | recv e' => simp [Label.actionOf] at h
    | deliver e' => contradiction
    | drop e' => contradiction
  · exact fun h => ⟨_, h, by simp [Label.actionOf]⟩

omit [DecidableEq κ] in
theorem exists_of_recv_mem_performed {src : ι} {key : κ} (h : .recv src key ∈ performed i tr) :
    ∃ e, Label.recv e ∈ tr ∧ e.slot = ⟨src, i, key⟩ := by
  obtain ⟨l, hl, h⟩ := List.mem_filterMap.1 h
  cases l with
  | recv e =>
    rw [Label.actionOf] at h
    split at h
    · next hdst =>
      obtain ⟨rfl, rfl⟩ := Action.recv.inj (Option.some.inj h)
      exact ⟨e, hl, by rw [← hdst]⟩
    · contradiction
  | mark j e => simp [Label.actionOf] at h
  | send e => simp [Label.actionOf] at h
  | deliver e => contradiction
  | drop e => contradiction

/-- The key of the message of an action. -/
def Action.key? : Action ι κ η → Option κ
  | mark _ => none
  | send _ key | recv _ key => some key

/-- The action takes a message. -/
def Action.isRecv : Action ι κ η → Bool
  | recv _ _ => true
  | _ => false

/-- How many messages party `i` has received. -/
def receives (i : ι) (tr : List (Label ι κ μ η)) : ℕ := (performed i tr).countP Action.isRecv

/-- The process performs the actions of the list and returns, whatever it receives. -/
inductive Proc.Shape : Proc ι κ μ η ε α → List (Action ι κ η) → Prop
  | ret (a) : Shape (.ret a) []
  | mark {e p l} (h : Shape p l) : Shape (.mark e p) (.mark e :: l)
  | send {dst key msg p l} (h : Shape p l) : Shape (.send dst key msg p) (.send dst key :: l)
  | recv {src key next l} (h : ∀ m, Shape (next m) l) :
    Shape (.recv src key next) (.recv src key :: l)

variable {p : Proc ι κ μ η ε α} {l l' : List (Action ι κ η)} {f : α → Proc ι κ μ η ε β}

omit [DecidableEq ι] [DecidableEq κ] in
theorem Proc.Shape.bind (h : p.Shape l) (hf : ∀ a, (f a).Shape l') : (p >>= f).Shape (l ++ l') := by
  induction h with
  | ret a => exact hf a
  | mark _ ih => exact .mark ih
  | send _ ih => exact .send ih
  | recv _ ih => exact .recv ih

omit [DecidableEq ι] [DecidableEq κ] in
theorem Proc.shape_forLoop {n : ℕ} {body : ℕ → α → Proc ι κ μ η ε α}
    {acts : ℕ → List (Action ι κ η)} (h : ∀ k < n, ∀ s, (body k s).Shape (acts k)) (s : α) :
    (forLoop n body s).Shape ((List.range n).flatMap acts) := by
  induction n with
  | zero => exact .ret s
  | succ n ih =>
    rw [forLoop_succ, List.range_succ, List.flatMap_append, List.flatMap_singleton]
    exact (ih fun k hk => h k (hk.trans (Nat.lt_succ_self n))).bind (h n (Nat.lt_succ_self n))

theorem Step.shape {l : Label ι κ μ η} (h : Step c l c') {rest : List (Action ι κ η)}
    (hrest : (c.procs i).Shape rest) :
    ∃ rest', rest = (l.actionOf i).toList ++ rest' ∧ (c'.procs i).Shape rest' := by
  cases h with
  | @mark j e p h =>
    obtain rfl | hj := eq_or_ne i j
    · rw [h] at hrest
      cases hrest with
      | @mark _ _ l hp => exact ⟨l, by simp [Label.actionOf], by simpa using hp⟩
    · exact ⟨rest, by simp [Label.actionOf, hj.symm], by simpa [hj] using hrest⟩
  | @send j dst key msg p h =>
    obtain rfl | hj := eq_or_ne i j
    · rw [h] at hrest
      cases hrest with
      | @send _ _ _ _ l hp => exact ⟨l, by simp [Label.actionOf], by simpa using hp⟩
    · exact ⟨rest, by simp [Label.actionOf, hj.symm], by simpa [hj] using hrest⟩
  | deliver h hfree => exact ⟨rest, rfl, hrest⟩
  | drop h hfull => exact ⟨rest, rfl, hrest⟩
  | @recv j src key next m h hm =>
    obtain rfl | hj := eq_or_ne i j
    · rw [h] at hrest
      cases hrest with
      | @recv _ _ _ l hp => exact ⟨l, by simp [Label.actionOf], by simpa using hp m⟩
    · exact ⟨rest, by simp [Label.actionOf, hj.symm], by simpa [hj] using hrest⟩

/-- **A party performs a beginning of its actions**, and the rest is still to come. -/
theorem Run.shape (h : Run c tr c') {acts : List (Action ι κ η)} (hacts : (c.procs i).Shape acts) :
    ∃ rest, acts = performed i tr ++ rest ∧ (c'.procs i).Shape rest := by
  induction h with
  | nil => exact ⟨acts, rfl, hacts⟩
  | snoc h hs ih =>
    obtain ⟨rest, rfl, hrest⟩ := ih
    obtain ⟨rest', rfl, hrest'⟩ := hs.shape hrest
    exact ⟨rest', by rw [performed_snoc, List.append_assoc], hrest'⟩

/-! ### Where the messages are -/

section Messages

variable [DecidableEq η] {procs : ι → Proc ι κ μ η ε α} {c : Config ι κ μ η ε α}
  {tr : List (Label ι κ μ η)} {acts : ι → List (Action ι κ η)}

/-- How often a message was sent into a slot. -/
def sends (s : Slot ι κ) (tr : List (Label ι κ μ η)) : ℕ :=
  (performed s.src tr).count (.send s.dst s.key)

/-- How often a message was taken out of a slot. -/
def recvs (s : Slot ι κ) (tr : List (Label ι κ μ η)) : ℕ :=
  (performed s.dst tr).count (.recv s.src s.key)

/-- The number of messages that are on their way to a slot or in it. -/
def pending (c : Config ι κ μ η ε α) (s : Slot ι κ) : ℕ :=
  c.transit.countP (·.slot = s) + (c.mailbox s).toList.length

theorem sends_snoc (s : Slot ι κ) (tr : List (Label ι κ μ η)) (l : Label ι κ μ η) :
    sends s (tr ++ [l]) = sends s tr + sends s [l] := by
  simp only [sends, performed, List.filterMap_append, List.count_append]

theorem recvs_snoc (s : Slot ι κ) (tr : List (Label ι κ μ η)) (l : Label ι κ μ η) :
    recvs s (tr ++ [l]) = recvs s tr + recvs s [l] := by
  simp only [recvs, performed, List.filterMap_append, List.count_append]

theorem sends_send (s : Slot ι κ) (e : Envelope ι κ μ) :
    sends s [(.send e : Label ι κ μ η)] = if e.slot = s then 1 else 0 := by
  obtain ⟨⟨src, dst, key⟩, msg⟩ := e
  obtain ⟨src', dst', key'⟩ := s
  by_cases h : src = src' <;> simp [sends, performed, Label.actionOf, h, List.count_singleton]

theorem recvs_recv (s : Slot ι κ) (e : Envelope ι κ μ) :
    recvs s [(.recv e : Label ι κ μ η)] = if e.slot = s then 1 else 0 := by
  obtain ⟨⟨src, dst, key⟩, msg⟩ := e
  obtain ⟨src', dst', key'⟩ := s
  by_cases h : dst = dst' <;> simp [recvs, performed, Label.actionOf, h, List.count_singleton]

variable {l : Label ι κ μ η}

theorem sends_of_ne (s : Slot ι κ) (h : ∀ e, l ≠ .send e) : sends s [l] = 0 := by
  cases l with
  | mark j e => by_cases hj : j = s.src <;> simp [sends, performed, Label.actionOf, hj]
  | send e => exact absurd rfl (h e)
  | recv e => by_cases hj : e.slot.dst = s.src <;> simp [sends, performed, Label.actionOf, hj]
  | deliver e => rfl
  | drop e => rfl

theorem recvs_of_ne (s : Slot ι κ) (h : ∀ e, l ≠ .recv e) : recvs s [l] = 0 := by
  cases l with
  | mark j e => by_cases hj : j = s.dst <;> simp [recvs, performed, Label.actionOf, hj]
  | recv e => exact absurd rfl (h e)
  | send e => by_cases hj : e.slot.src = s.dst <;> simp [recvs, performed, Label.actionOf, hj]
  | deliver e => rfl
  | drop e => rfl

theorem length_update (f : Slot ι κ → Option μ) (s s' : Slot ι κ) (o : Option μ) :
    (Function.update f s' o s).toList.length =
      if s' = s then o.toList.length else (f s).toList.length := by
  by_cases h : s' = s
  · subst h
    simp
  · rw [Function.update_of_ne (Ne.symm h), if_neg h]

theorem Step.balance {c c' : Config ι κ μ η ε α} (h : Step c l c') (hdrop : ∀ e, l ≠ .drop e)
    (s : Slot ι κ) : pending c s + sends s [l] = pending c' s + recvs s [l] := by
  cases h with
  | mark h => rw [sends_of_ne s (by simp), recvs_of_ne s (by simp)]; rfl
  | send h =>
    rw [sends_send, recvs_of_ne s (by simp), pending, pending, List.countP_cons]
    simp only [decide_eq_true_eq]
    omega
  | deliver h hfree =>
    rw [sends_of_ne s (by simp), recvs_of_ne s (by simp), pending, pending, h, length_update]
    simp only [List.countP_append, List.countP_cons, decide_eq_true_eq, Option.toList_some,
      List.length_singleton]
    split
    · next heq => rw [← heq, hfree]; simp only [Option.toList_none, List.length_nil]; omega
    · omega
  | drop h hfull => exact absurd rfl (hdrop _)
  | recv h hm =>
    rw [sends_of_ne s (by simp), recvs_recv, pending, pending, length_update]
    split
    · next heq => rw [← heq, hm]; rfl
    · rfl

section Balance

variable (h : Run (.start procs) tr c) (hshape : ∀ i, (procs i).Shape (acts i))
  (hnodup : ∀ i, (acts i).Nodup)

include h hshape hnodup

theorem Run.sends_le_one (s : Slot ι κ) : sends s tr ≤ 1 := by
  obtain ⟨rest, hrest, -⟩ := h.shape (hshape s.src)
  have hcount := List.nodup_iff_count_le_one.1 (hnodup s.src) (.send s.dst s.key)
  rw [hrest, List.count_append] at hcount
  exact (Nat.le_add_right _ _).trans hcount

/-- In a run of processes that do not repeat an action, every message is in one place. -/
theorem Run.balance : (∀ e, Label.drop e ∉ tr) ∧ ∀ s, sends s tr = pending c s + recvs s tr := by
  induction h with
  | nil => exact ⟨fun e he => by simp at he, fun s => rfl⟩
  | @snoc tr c l c' h hs ih =>
    obtain ⟨hdrops, hbal⟩ := ih
    have hdrop : ∀ e, l ≠ .drop e := by
      rintro e rfl
      cases hs with
      | drop hsplit hfull =>
        -- the two messages were both sent into the slot
        have hone := h.sends_le_one hshape hnodup e.slot
        have htwo := hbal e.slot
        obtain ⟨m, hm⟩ := Option.ne_none_iff_exists'.1 hfull
        rw [pending, hsplit, hm, List.countP_append, List.countP_cons] at htwo
        simp only [decide_true, if_true, Option.toList_some, List.length_singleton] at htwo
        omega
    refine ⟨fun e he => ?_, fun s => ?_⟩
    · rcases List.mem_append.1 he with he | he
      · exact hdrops e he
      · exact hdrop e (List.mem_singleton.1 he).symm
    · have := hs.balance hdrop s
      have := hbal s
      rw [sends_snoc, recvs_snoc]
      omega

/-- **Nothing is dropped.** -/
theorem Run.drop_notMem (e : Envelope ι κ μ) : Label.drop e ∉ tr :=
  (h.balance hshape hnodup).1 e

/-- **Who has received a message has been sent one.** -/
theorem Run.send_mem_performed {i src : ι} {key : κ} (hrecv : .recv src key ∈ performed i tr) :
    .send i key ∈ performed src tr := by
  have hbal := (h.balance hshape hnodup).2 ⟨src, i, key⟩
  have hpos : 0 < recvs ⟨src, i, key⟩ tr := List.count_pos_iff.2 hrecv
  exact List.count_pos_iff.1 (show 0 < sends ⟨src, i, key⟩ tr by omega)

end Balance

variable {i : ι}

theorem Run.send_mem_of_recv {l₁ l₂ : List (Label ι κ μ η)} {e : Envelope ι κ μ}
    (h : Run (.start procs) (l₁ ++ .recv e :: l₂) c) (hshape : ∀ i, (procs i).Shape (acts i))
    (hnodup : ∀ i, (acts i).Nodup) : .send e.slot.dst e.slot.key ∈ performed e.slot.src l₁ := by
  rw [← List.singleton_append, ← List.append_assoc] at h
  obtain ⟨c₁, h₁⟩ := h.left
  have hrecv : .recv e.slot.src e.slot.key ∈ performed e.slot.dst (l₁ ++ [.recv e]) := by
    rw [performed_snoc]
    simp [Label.actionOf]
  have hsend := h₁.send_mem_performed hshape hnodup hrecv
  rw [performed_snoc, List.mem_append] at hsend
  refine hsend.resolve_right fun hlast => ?_
  by_cases hself : e.slot.dst = e.slot.src <;> simp [Label.actionOf] at hlast

/-! ### The length of a run -/

omit [DecidableEq κ] [DecidableEq η] in
theorem sum_actionOf [Fintype ι] (l : Label ι κ μ η) :
    (∀ e, l ≠ .deliver e) → (∀ e, l ≠ .drop e) →
      ∑ i, (l.actionOf i).toList.length = 1 := by
  intro hdeliver hdrop
  have hsum (j : ι) (a : Action ι κ η) :
      ∑ i, (if j = i then some a else none).toList.length = 1 := by
    rw [Finset.sum_eq_single j (fun i _ hi => by rw [if_neg (Ne.symm hi)]; rfl) (by simp),
      if_pos rfl]
    rfl
  cases l with
  | mark j e => exact hsum j _
  | send e => exact hsum e.slot.src _
  | recv e => exact hsum e.slot.dst _
  | deliver e => exact absurd rfl (hdeliver e)
  | drop e => exact absurd rfl (hdrop e)

omit [DecidableEq η] in
/-- **A run is bounded**: a party acts once for each of its actions, and a message arrives once. -/
theorem Run.length_le [Fintype ι] (h : Run (.start procs) tr c)
    (hshape : ∀ i, (procs i).Shape (acts i)) : tr.length ≤ 2 * ∑ i, (acts i).length := by
  have hbound : tr.length + c.transit.length ≤ 2 * ∑ i, (performed i tr).length := by
    clear hshape
    induction h with
    | nil => simp [Config.start]
    | @snoc tr c l c' h hs ih =>
      have hsum : ∑ i, (performed i (tr ++ [l])).length =
          ∑ i, (performed i tr).length + ∑ i, (l.actionOf i).toList.length := by
        rw [← Finset.sum_add_distrib]
        exact Finset.sum_congr rfl fun i _ => by rw [performed_snoc, List.length_append]
      rw [hsum, List.length_append, List.length_singleton]
      cases hs with
      | mark h => rw [sum_actionOf _ (by simp) (by simp)]; dsimp only; omega
      | send h =>
        rw [sum_actionOf _ (by simp) (by simp), List.length_cons]
        omega
      | deliver h hfree =>
        rw [h, List.length_append, List.length_cons] at ih
        rw [List.length_append]
        omega
      | drop h hfull =>
        rw [h, List.length_append, List.length_cons] at ih
        rw [List.length_append]
        omega
      | recv h hm => rw [sum_actionOf _ (by simp) (by simp)]; dsimp only; omega
  have hle : ∑ i, (performed i tr).length ≤ ∑ i, (acts i).length := by
    refine Finset.sum_le_sum fun i _ => ?_
    obtain ⟨rest, hrest, -⟩ := h.shape (hshape i)
    rw [hrest, List.length_append]
    exact Nat.le_add_right _ _
  omega

omit [DecidableEq η] in
/-- **Every run goes on** until no step is possible any more. -/
theorem Run.exists_stuck [Fintype ι] (h : Run (.start procs) tr c)
    (hshape : ∀ i, (procs i).Shape (acts i)) :
    ∃ tr' c', Run (.start procs) (tr ++ tr') c' ∧ Stuck c' := by
  generalize hn : 2 * ∑ i, (acts i).length - tr.length = n
  induction n generalizing tr c with
  | zero =>
    refine ⟨[], c, by rwa [List.append_nil], fun l c' hs => ?_⟩
    have hlen := (h.snoc hs).length_le hshape
    rw [List.length_append, List.length_singleton] at hlen
    omega
  | succ n ih =>
    by_cases hstuck : Stuck c
    · exact ⟨[], c, by rwa [List.append_nil], hstuck⟩
    · simp only [Stuck, not_forall, not_not] at hstuck
      obtain ⟨l, c', hs⟩ := hstuck
      obtain ⟨tr', c'', hrun, hend⟩ := ih (h.snoc hs) (by
        rw [List.length_append, List.length_singleton]
        omega)
      exact ⟨[l] ++ tr', c'', by rwa [← List.append_assoc], hend⟩

/-! ### Timetables -/

/-- The actions of the parties with the times at which they are planned. -/
structure Timetable (plan : ι → List (ℕ × Action ι κ η)) : Prop where
  sorted : ∀ i, (plan i).Pairwise fun x y => x.1 < y.1
  nodup : ∀ i, ((plan i).map Prod.snd).Nodup

variable {plan : ι → List (ℕ × Action ι κ η)}

omit [DecidableEq ι] [DecidableEq κ] [DecidableEq η] in
/-- A plan that is sorted does not repeat an action if the action determines the time. -/
theorem Timetable.of_unique (hsorted : ∀ i, (plan i).Pairwise fun x y => x.1 < y.1)
    (hunique : ∀ i t t' a, (t, a) ∈ plan i → (t', a) ∈ plan i → t = t') : Timetable plan := by
  refine ⟨hsorted, fun i => List.Nodup.map_on ?_ ?_⟩
  · rintro ⟨t, a⟩ h ⟨t', a'⟩ h' rfl
    rw [hunique i t t' a h h']
  · refine (hsorted i).imp fun {x y} h heq => ?_
    rw [heq] at h
    exact Nat.lt_irrefl _ h

variable (h : Run (.start procs) tr c) (hplan : Timetable plan)
  (hshape : ∀ i, (procs i).Shape ((plan i).map Prod.snd))

omit [DecidableEq η] in
include h hshape in
theorem Run.plan_eq (i : ι) : ∃ l₁ l₂, plan i = l₁ ++ l₂ ∧ l₁.map Prod.snd = performed i tr ∧
      (c.procs i).Shape (l₂.map Prod.snd) := by
  obtain ⟨rest, hrest, hp⟩ := h.shape (hshape i)
  obtain ⟨l₁, l₂, hplan, hl₁, rfl⟩ := List.map_eq_append_iff.1 hrest
  exact ⟨l₁, l₂, hplan, hl₁, hp⟩

variable {a : Action ι κ η}

omit [DecidableEq η] in
include h hshape in
theorem Run.exists_time (ha : a ∈ performed i tr) : ∃ t, (t, a) ∈ plan i := by
  obtain ⟨l₁, l₂, heq, hl₁, -⟩ := h.plan_eq hshape i
  rw [← hl₁] at ha
  obtain ⟨⟨t, a'⟩, hmem, rfl⟩ := List.mem_map.1 ha
  exact ⟨t, by rw [heq]; exact List.mem_append_left _ hmem⟩

include h hplan hshape

omit [DecidableEq η] in
theorem Run.mem_performed_of_lt {t t' : ℕ} {a' : Action ι κ η} (ha : a ∈ performed i tr)
    (hmem : (t, a) ∈ plan i) (hmem' : (t', a') ∈ plan i) (hlt : t' < t) : a' ∈ performed i tr := by
  obtain ⟨l₁, l₂, heq, hl₁, -⟩ := h.plan_eq hshape i
  have hsorted := hplan.sorted i
  have hnodup := hplan.nodup i
  rw [heq, List.pairwise_append] at hsorted
  rw [heq, List.map_append, List.nodup_append] at hnodup
  rw [heq, List.mem_append] at hmem hmem'
  rw [← hl₁] at ha ⊢
  rcases hmem' with h' | h'
  · exact List.mem_map.2 ⟨_, h', rfl⟩
  · rcases hmem with h'' | h''
    · exact absurd (hsorted.2.2 _ h'' _ h') (by dsimp only; omega)
    · exact absurd rfl (hnodup.2.2 _ ha _ (List.mem_map.2 ⟨_, h'', rfl⟩))

/-- **What the timetable completes has happened** when no step is possible any more: every action
before the time `T`, if the messages that are received before `T` are sent before. -/
theorem Run.mem_performed {T : ℕ} (hmatch : ∀ i t src key, t < T → (t, .recv src key) ∈ plan i →
      ∃ t' < t, (t', .send i key) ∈ plan src)
    (hstuck : Stuck c) {t : ℕ} (hmem : (t, a) ∈ plan i) (ht : t < T) : a ∈ performed i tr := by
  -- induction on the time: all that is planned before has been performed by all parties
  induction t using Nat.strong_induction_on generalizing i a with
  | _ t ih =>
    by_contra hnot
    obtain ⟨l₁, l₂, heq, hl₁, hp⟩ := h.plan_eq hshape i
    have hsorted := hplan.sorted i
    have hnodup := hplan.nodup i
    rw [heq, List.map_append, hl₁, List.nodup_append] at hnodup
    have hmem₂ : (t, a) ∈ l₂ := by
      rw [heq, List.mem_append] at hmem
      refine hmem.resolve_left fun h₁ => hnot ?_
      rw [← hl₁]
      exact List.mem_map.2 ⟨_, h₁, rfl⟩
    -- so the action is the next one of the party
    obtain ⟨l₂', rfl⟩ : ∃ l₂', l₂ = (t, a) :: l₂' := by
      cases l₂ with
      | nil => simp at hmem₂
      | cons x l₂' =>
        rcases List.mem_cons.1 hmem₂ with rfl | hlater
        · exact ⟨l₂', rfl⟩
        · rw [heq, List.pairwise_append] at hsorted
          have hx := List.rel_of_pairwise_cons hsorted.2.1 hlater
          have hx' := ih x.1 hx
            (by rw [heq]; exact List.mem_append_right _ List.mem_cons_self) (by omega)
          exact absurd rfl (hnodup.2.2 _ hx' x.2 (by simp))
    generalize hproc : c.procs i = p at hp
    cases hp with
    | mark hp => exact hstuck _ _ (.mark hproc)
    | send hp => exact hstuck _ _ (.send hproc)
    | @recv src key next _ hp =>
      obtain ⟨t', ht', hsend⟩ := hmatch i t src key ht hmem
      have hsent := ih t' ht' hsend (by omega)
      have hbal := (h.balance hshape hplan.nodup).2 ⟨src, i, key⟩
      have hpos : 0 < sends ⟨src, i, key⟩ tr := List.count_pos_iff.2 hsent
      have hzero : recvs ⟨src, i, key⟩ tr = 0 := List.count_eq_zero.2 hnot
      -- the message is on its way or in its slot, and there is a step in both cases
      cases hbox : c.mailbox ⟨src, i, key⟩ with
      | some m => exact hstuck _ _ (.recv hproc hbox)
      | none =>
        rw [pending, hbox] at hbal
        have hcount : 0 < c.transit.countP (·.slot = ⟨src, i, key⟩) := by
          simp only [Option.toList_none, List.length_nil] at hbal
          omega
        obtain ⟨e, he, hslot⟩ := List.countP_pos_iff.1 hcount
        obtain ⟨m₁, m₂, hsplit⟩ := List.append_of_mem he
        exact hstuck _ _ (.deliver hsplit (by rw [of_decide_eq_true hslot]; exact hbox))

/-- **Everything has happened** if every message that is received is sent before, and every message
that is sent is received: the parties have returned, and no message is left. -/
theorem Run.completed
    (hmatch : ∀ i t src key, (t, .recv src key) ∈ plan i → ∃ t' < t, (t', .send i key) ∈ plan src)
    (hrecv : ∀ i t dst key, (t, .send dst key) ∈ plan i → ∃ t', (t', .recv i key) ∈ plan dst)
    (hstuck : Stuck c) :
    (∀ i, performed i tr = (plan i).map Prod.snd) ∧ (∀ i, ∃ a, c.procs i = .ret a) ∧
      c.transit = [] ∧ ∀ s, c.mailbox s = none := by
  have hall {i : ι} {t : ℕ} {a : Action ι κ η} (hmem : (t, a) ∈ plan i) : a ∈ performed i tr :=
    h.mem_performed hplan hshape (fun i t src key _ => hmatch i t src key) hstuck hmem
      (Nat.lt_succ_self t)
  have hdone : ∀ i, performed i tr = (plan i).map Prod.snd ∧ ∃ a, c.procs i = .ret a := by
    intro i
    obtain ⟨l₁, l₂, heq, hl₁, hp⟩ := h.plan_eq hshape i
    have hnodup := hplan.nodup i
    rw [heq, List.map_append, hl₁, List.nodup_append] at hnodup
    obtain rfl : l₂ = [] := by
      refine List.eq_nil_iff_forall_not_mem.2 fun x hx => ?_
      have hx' := hall
        (by rw [heq]; exact List.mem_append_right _ hx)
      exact hnodup.2.2 _ hx' x.2 (List.mem_map.2 ⟨x, hx, rfl⟩) rfl
    rw [heq, List.append_nil, hl₁]
    generalize c.procs i = p at hp
    cases hp with
    | ret a => exact ⟨rfl, a, rfl⟩
  -- a message that is left was not received, so its slot was used twice
  have hnone : ∀ s, pending c s = 0 := by
    intro s
    by_contra hne
    have hbal := (h.balance hshape hplan.nodup).2 s
    have hone := h.sends_le_one hshape hplan.nodup s
    have hsent : Action.send s.dst s.key ∈ performed s.src tr :=
      List.count_pos_iff.1 (show 0 < sends s tr by omega)
    rw [(hdone s.src).1] at hsent
    obtain ⟨⟨t, _⟩, hmem, rfl⟩ := List.mem_map.1 hsent
    obtain ⟨t', hmem'⟩ := hrecv _ _ _ _ hmem
    have hpos : 0 < recvs s tr := List.count_pos_iff.2 (hall hmem')
    omega
  refine ⟨fun i => (hdone i).1, fun i => (hdone i).2, ?_, fun s => ?_⟩
  · refine List.eq_nil_iff_forall_not_mem.2 fun e he => ?_
    have hpos : 0 < c.transit.countP (·.slot = e.slot) :=
      List.countP_pos_iff.2 ⟨e, he, decide_eq_true rfl⟩
    have := hnone e.slot
    rw [pending] at this
    omega
  · have := hnone s
    rw [pending] at this
    cases hbox : c.mailbox s with
    | none => rfl
    | some m => rw [hbox] at this; simp at this

end Messages

/-! ### Rely and guarantee -/

/-- The messages that the process sends are in `P` and its result is in `Q`, as long as it receives
messages in `P`. -/
def Proc.Meets (i : ι) (P : Envelope ι κ μ → Prop) (Q : α → Prop) : Proc ι κ μ η ε α → Prop
  | ret a => Q a
  | throw _ => True
  | mark _ p => p.Meets i P Q
  | send dst key msg p => P ⟨⟨i, dst, key⟩, msg⟩ ∧ p.Meets i P Q
  | recv src key next => ∀ m, P ⟨⟨src, i, key⟩, m⟩ → (next m).Meets i P Q

variable {Q : α → Prop}

omit [DecidableEq ι] [DecidableEq κ] in
theorem Proc.Meets.bind {P : Envelope ι κ μ → Prop} {Q' : β → Prop} (h : p.Meets i P Q)
    (hf : ∀ a, Q a → (f a).Meets i P Q') : (p >>= f).Meets i P Q' := by
  induction p with
  | ret a => exact hf a h
  | throw e => trivial
  | mark e p ih => exact ih h
  | send dst key msg p ih => exact ⟨h.1, ih h.2⟩
  | recv src key next ih => exact fun m hm => ih m (h m hm)

omit [DecidableEq ι] [DecidableEq κ] in
/-- **Invariant rule** for a loop. -/
theorem Proc.meets_forLoop {n : ℕ} {body : ℕ → α → Proc ι κ μ η ε α} {P : Envelope ι κ μ → Prop}
    (Inv : ℕ → α → Prop) (hstep : ∀ k < n, ∀ a, Inv k a → (body k a).Meets i P (Inv (k + 1)))
    {a : α} (h0 : Inv 0 a) : (forLoop n body a).Meets i P (Inv n) := by
  induction n with
  | zero => exact h0
  | succ n ih => exact (ih fun k hk => hstep k (by omega)).bind (hstep n (by omega))

omit [DecidableEq ι] [DecidableEq κ] in
theorem Proc.meets_true (i : ι) (p : Proc ι κ μ η ε α) :
    p.Meets i (fun _ => True) fun _ => True := by
  induction p with
  | ret a => trivial
  | throw e => trivial
  | mark e p ih => exact ih
  | send dst key msg p ih => exact ⟨trivial, ih⟩
  | recv src key next ih => exact fun m _ => ih m

omit [DecidableEq ι] [DecidableEq κ] in
/-- Actions of one process after the other, which depends on the result of the first. -/
theorem Proc.Shape.bind_of_meets (h : p.Shape l) (hQ : p.Meets i (fun _ => True) Q)
    (hf : ∀ a, Q a → (f a).Shape l') : (p >>= f).Shape (l ++ l') := by
  induction h with
  | ret a => exact hf a hQ
  | mark _ ih => exact .mark (ih hQ)
  | send _ ih => exact .send (ih hQ.2)
  | recv _ ih => exact .recv fun m => ih m (hQ m trivial)

omit [DecidableEq ι] [DecidableEq κ] in
theorem Proc.Shape.of_bind [Nonempty μ] (h : p.Shape l) (hQ : p.Meets i (fun _ => True) Q)
    (hf : (p >>= f).Shape l') : ∃ a l'', Q a ∧ (f a).Shape l'' := by
  induction h generalizing l' with
  | ret a => exact ⟨a, l', hQ, hf⟩
  | mark _ ih => cases hf with | mark hf => exact ih hQ hf
  | send _ ih => cases hf with | send hf => exact ih hQ.2 hf
  | recv _ ih =>
    obtain ⟨m⟩ := ‹Nonempty μ›
    cases hf with | recv hf => exact ih m (hQ m trivial) (hf m)

/-- **Rely and guarantee.** If every process meets the condition, all messages of a run are in
`P`. -/
theorem Run.meets {procs : ι → Proc ι κ μ η ε α} {P : Envelope ι κ μ → Prop} {Q : ι → α → Prop}
    (h : Run (.start procs) tr c) (hmeets : ∀ i, (procs i).Meets i P (Q i)) :
    (∀ i, (c.procs i).Meets i P (Q i)) ∧ (∀ e ∈ c.transit, P e) ∧
      (∀ s m, c.mailbox s = some m → P ⟨s, m⟩) ∧ ∀ e, Label.recv e ∈ tr → P e := by
  induction h with
  | nil => exact ⟨hmeets, by simp [Config.start], by simp [Config.start], by simp⟩
  | @snoc tr c l c' h hs ih =>
    obtain ⟨hprocs, htransit, hbox, hlabels⟩ := ih
    have hupdate (j : ι) (p : Proc ι κ μ η ε α) (hp : p.Meets j P (Q j)) (i : ι) :
        (Function.update c.procs j p i).Meets i P (Q i) := by
      obtain rfl | hne := eq_or_ne i j
      · rwa [Function.update_self]
      · rw [Function.update_of_ne hne]
        exact hprocs i
    have hrest (e : Envelope ι κ μ) (l₁ l₂ : List (Envelope ι κ μ)) : l₁ ++ l₂ ⊆ l₁ ++ e :: l₂ :=
      ((List.sublist_cons_self e l₂).append_left l₁).subset
    cases hs with
    | @mark j e p h =>
      have hj := hprocs j
      rw [h] at hj
      exact ⟨hupdate j p hj, htransit, hbox, by simpa using hlabels⟩
    | @send j dst key msg p h =>
      have hj := hprocs j
      rw [h] at hj
      exact ⟨hupdate j p hj.2, by simpa using ⟨hj.1, htransit⟩, hbox, by simpa using hlabels⟩
    | @deliver e l₁ l₂ h hfree =>
      rw [h] at htransit
      refine ⟨hprocs, fun e' he' => htransit e' (hrest e l₁ l₂ he'), fun s m hm => ?_,
        by simpa using hlabels⟩
      dsimp only at hm
      obtain rfl | hne := eq_or_ne s e.slot
      · rw [Function.update_self] at hm
        obtain rfl := Option.some.inj hm
        exact htransit e (List.mem_append_right _ List.mem_cons_self)
      · rw [Function.update_of_ne hne] at hm
        exact hbox s m hm
    | @drop e l₁ l₂ h hfull =>
      rw [h] at htransit
      exact ⟨hprocs, fun e' he' => htransit e' (hrest e l₁ l₂ he'), hbox, by simpa using hlabels⟩
    | @recv j src key next m h hm =>
      have hj := hprocs j
      rw [h] at hj
      refine ⟨hupdate j _ (hj m (hbox _ m hm)), htransit, fun s m' hm' => ?_, fun e he => ?_⟩
      · dsimp only at hm'
        obtain rfl | hne := eq_or_ne s ⟨src, j, key⟩
        · rw [Function.update_self] at hm'
          contradiction
        · rw [Function.update_of_ne hne] at hm'
          exact hbox s m' hm'
      · rcases List.mem_append.1 he with he | he
        · exact hlabels e he
        · obtain rfl := Label.recv.inj (List.mem_singleton.1 he)
          exact hbox _ m hm

end Network
