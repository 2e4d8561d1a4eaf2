import Yacl.Link.Collectives

/-!
# The keys of messages

A party makes calls on a tree of contexts: it spawns children, calls collective algorithms, sends
and receives. All contexts of two parties share one channel, so that the **keys** of the messages
have to tell them apart. A key is a text that is made of the id of the context, which has the
numbers of the `Spawn` calls that have led to it, and of a counter of the context.

**What a message is for** is a `Stream`, the calls that one counter counts, and a number in it: the
`m`-th call of a collective algorithm on a context, or the `m`-th message from `src` to `dst` on it.
A party that has made some calls holds the contexts of `heldAfter`, whose counters are the numbers
of calls in the streams (`shape_run`, `meets_run`), and the key of a message determines its stream
and its number (`Stream.IsKey.unique`). So parties that agree on the calls find each other's
messages, and no others.

An entry of `p2p_counter_` is an `int`. The `2 ^ 31`-th message from one party to another on one
context overflows it, and the program is undefined from there on (`run_of_not_fits`).
-/

open Bytes Network

namespace Yacl.Link

variable {W : World} {η : Type}

/-! ### Programs -/

/-- A context, by the numbers of the `Spawn` calls that have led to it, the last one first. -/
abbrev Path := List ℕ

/-- A call of a party. -/
inductive Call (W : World) where
  | spawn (p : Path)
  | collective (p : Path) (a : Collective W)
  | send (p : Path) (dst : Fin W.size) (value : List Byte)
  | recv (p : Path) (src : Fin W.size)

/-- The contexts that a party holds. -/
abbrev Held (W : World) := Path → Option (Context W)

/-- A party before its first call. -/
def Held.root (id : Str) (i : Fin W.size) : Held W :=
  Function.update (fun _ => none) [] (some (Context.make id i))

namespace Call

/-- The context of a call. -/
def path : Call W → Path
  | spawn p => p
  | collective p _ => p
  | send p _ _ => p
  | recv p _ => p

/-- A call on a context, which is a null pointer if it has not been made. -/
def onContext {α : Type} (held : Held W) (p : Path) (f : Context W → LinkProc W η α) :
    LinkProc W η α :=
  match held p with
  | some ctx => f ctx
  | none => .throw .undefinedBehaviour

/-- A call: the contexts after it. -/
def run (held : Held W) : Call W → LinkProc W η (Held W)
  | spawn p => onContext held p fun ctx =>
    let (child, ctx') := ctx.spawn
    let held := Function.update held p (some ctx')
    pure (Function.update held (ctx.childCounter :: p) (some child))
  | collective p a => onContext held p fun ctx => do
    let ctx ← a.run ctx
    pure (Function.update held p (some ctx))
  | send p dst value => onContext held p fun ctx => do
    let ctx ← ctx.sendAsync dst value
    pure (Function.update held p (some ctx))
  | recv p src => onContext held p fun ctx => do
    let (_, ctx) ← ctx.recv src
    pure (Function.update held p (some ctx))

/-- The other party of a message is another one, and a collective algorithm has its inputs. -/
def Valid (i : Fin W.size) : Call W → Prop
  | spawn _ => True
  | collective _ a => a.HasInputs i
  | send _ dst _ => dst ≠ i
  | recv _ src => src ≠ i

end Call

/-- The calls of a party from call `n` on. The trace shows where a call begins. -/
def runCalls : ℕ → List (Call W) → Held W → LinkProc W ℕ (Held W)
  | _, [], held => pure held
  | n, call :: calls, held => do
    Proc.markEvent n
    let held ← call.run held
    runCalls (n + 1) calls held

/-! ### Streams -/

/-- The calls that one counter counts. -/
inductive Stream where
  | spawn (p : Path)
  | collective (p : Path)
  | p2p (p : Path) (src dst : ℕ)
deriving DecidableEq

/-- The context of the counter. -/
def Stream.path : Stream → Path
  | spawn p => p
  | collective p => p
  | p2p p _ _ => p

/-- The stream of a call of party `i`. -/
def Call.stream (i : Fin W.size) : Call W → Stream
  | spawn p => .spawn p
  | collective p _ => .collective p
  | send p dst _ => .p2p p i dst
  | recv p src => .p2p p src i

/-- How many calls of a party are in a stream. -/
def callCount (i : Fin W.size) (calls : List (Call W)) (s : Stream) : ℕ :=
  calls.countP (·.stream i = s)

/-- Whether the calls of a party have made a context. -/
def created (i : Fin W.size) (calls : List (Call W)) : Path → Bool
  | [] => true
  | c :: p => created i calls p && decide (c < callCount i calls (.spawn p))

/-- A party makes calls on contexts that it has made. -/
def Scoped (i : Fin W.size) (calls : List (Call W)) : Prop :=
  ∀ n call, calls[n]? = some call → created i (calls.take n) call.path = true

/-- **Programs.** A party uses contexts that it has made, and the `m`-th calls of collective
algorithms on a context are of one kind at all parties that make them. The messages that a party
sends may be received later, or not yet. -/
structure Programs (W : World) where
  /-- `desc_.id` of the first context. -/
  id : Str
  calls : Fin W.size → List (Call W)
  scope : ∀ i, Scoped i (calls i)
  valid : ∀ i, ∀ call ∈ calls i, call.Valid i
  agree : ∀ i j n n' p a b, (calls i)[n]? = some (.collective p a) →
    (calls j)[n']? = some (.collective p b) →
    callCount i ((calls i).take n) (.collective p) =
      callCount j ((calls j).take n') (.collective p) →
    a.kind = b.kind

/-! ### Keys -/

/-- The id of a context. -/
def pathId (id : Str) : Path → Str
  | [] => id
  | c :: p => pathId id p ++ Context.ascii "-" ++ toDecimal c

/-- The key of the messages of call `m` of a collective algorithm on a context. -/
def collectiveKey (id : Str) (p : Path) (m : ℕ) (kType : String) : Str :=
  pathId id p ++ Context.ascii ":" ++ toDecimal (m + 1) ++ Context.ascii ":" ++
    Context.ascii kType

/-- The key of message `m` from `src` to `dst` on a context. -/
def p2pKey (id : Str) (p : Path) (src dst m : ℕ) : Str :=
  pathId id p ++ Context.ascii ":P2P-" ++ toDecimal (m + 1) ++ Context.ascii ":" ++
    toDecimal src ++ Context.ascii "->" ++ toDecimal dst

/-- The texts that are keys of call `m` of a stream. -/
def Stream.IsKey (id : Str) (m : ℕ) (key : Str) : Stream → Prop
  | spawn _ => False
  | collective p => ∃ kType, key = collectiveKey id p m kType
  | p2p p src dst => key = p2pKey id p src dst m

theorem append_cons_inj_left {α : Type} {b : α} {l₁ l₂ r₁ r₂ : List α} (h₁ : b ∉ l₁) (h₂ : b ∉ l₂)
    (h : l₁ ++ b :: r₁ = l₂ ++ b :: r₂) : l₁ = l₂ ∧ r₁ = r₂ := by
  induction l₁ generalizing l₂ with
  | nil =>
    cases l₂ with
    | nil => exact ⟨rfl, List.tail_eq_of_cons_eq h⟩
    | cons c l₂ => exact absurd (List.head_eq_of_cons_eq h) (List.ne_of_not_mem_cons h₂)
  | cons c l₁ ih =>
    cases l₂ with
    | nil => exact absurd (List.head_eq_of_cons_eq h).symm (List.ne_of_not_mem_cons h₁)
    | cons d l₂ =>
      obtain ⟨hl, hr⟩ := ih (List.not_mem_of_not_mem_cons h₁) (List.not_mem_of_not_mem_cons h₂)
        (List.tail_eq_of_cons_eq h)
      exact ⟨by rw [List.head_eq_of_cons_eq h, hl], hr⟩

theorem append_cons_inj_right {α : Type} {b : α} {l₁ l₂ r₁ r₂ : List α} (h₁ : b ∉ r₁)
    (h₂ : b ∉ r₂) (h : l₁ ++ b :: r₁ = l₂ ++ b :: r₂) : l₁ = l₂ ∧ r₁ = r₂ := by
  have hrev := congrArg List.reverse h
  rw [List.reverse_append, List.reverse_append, List.reverse_cons, List.reverse_cons,
    List.append_assoc, List.append_assoc] at hrev
  obtain ⟨hr, hl⟩ := append_cons_inj_left (by simpa using h₁) (by simpa using h₂) hrev
  exact ⟨List.reverse_injective hl, List.reverse_injective hr⟩

theorem notMem_toDecimal {b : Byte} (h : b.toNat < 0x30 ∨ 0x39 < b.toNat) (n : ℕ) :
    b ∉ toDecimal n := fun hmem => by
  have := mem_toDecimal hmem
  omega

theorem pathId_eq (id : Str) (p : Path) : pathId id p = id ++ pathId [] p := by
  induction p with
  | nil => exact (List.append_nil id).symm
  | cons c p ih => rw [pathId, pathId, ih, List.append_assoc, List.append_assoc, List.append_assoc]

theorem colon_notMem_pathId (p : Path) : (0x3A : Byte) ∉ pathId [] p := by
  induction p with
  | nil => exact List.not_mem_nil
  | cons c p ih =>
    rw [pathId, List.mem_append, List.mem_append]
    rintro ((h | h) | h)
    · exact ih h
    · exact absurd h (by decide)
    · exact notMem_toDecimal (.inr (by decide)) c h

theorem pathId_injective : Function.Injective (pathId []) := by
  have hyphen (n : ℕ) : (0x2D : Byte) ∉ toDecimal n := notMem_toDecimal (.inl (by decide)) n
  have hcons (c : ℕ) (p : Path) : pathId [] (c :: p) = pathId [] p ++ 0x2D :: toDecimal c := by
    rw [pathId, List.append_assoc]
    rfl
  intro p
  induction p with
  | nil =>
    intro q h
    cases q with
    | nil => rfl
    | cons c q =>
      rw [hcons] at h
      exact absurd h.symm (by simp [pathId])
  | cons c p ih =>
    intro q h
    cases q with
    | nil =>
      rw [hcons] at h
      exact absurd h (by simp [pathId])
    | cons d q =>
      rw [hcons, hcons] at h
      obtain ⟨hp, hc⟩ := append_cons_inj_right (hyphen c) (hyphen d) h
      rw [ih hp, toDecimal_injective hc]

theorem pathId_append_inj {id r r' : Str} {p p' : Path}
    (h : pathId id p ++ 0x3A :: r = pathId id p' ++ 0x3A :: r') : p = p' ∧ r = r' := by
  rw [pathId_eq, pathId_eq id p', List.append_assoc, List.append_assoc,
    List.append_cancel_left_eq] at h
  obtain ⟨hp, hr⟩ := append_cons_inj_left (colon_notMem_pathId p) (colon_notMem_pathId p') h
  exact ⟨pathId_injective hp, hr⟩

theorem collectiveKey_eq (id : Str) (p : Path) (m : ℕ) (kType : String) :
    collectiveKey id p m kType =
      pathId id p ++ 0x3A :: (toDecimal (m + 1) ++ 0x3A :: Context.ascii kType) := by
  rw [collectiveKey, List.append_assoc, List.append_assoc, List.append_assoc]
  rfl

theorem p2pKey_eq (id : Str) (p : Path) (src dst m : ℕ) :
    p2pKey id p src dst m = pathId id p ++ 0x3A :: (Context.ascii "P2P-" ++
      (toDecimal (m + 1) ++ 0x3A :: (toDecimal src ++ 0x2D :: 0x3E :: toDecimal dst))) := by
  rw [p2pKey, List.append_assoc, List.append_assoc, List.append_assoc, List.append_assoc,
    List.append_assoc]
  rfl

theorem collectiveKey_ne_p2pKey (id : Str) (p p' : Path) (m m' src dst : ℕ) (kType : String) :
    collectiveKey id p m kType ≠ p2pKey id p' src dst m' := by
  intro h
  rw [collectiveKey_eq, p2pKey_eq] at h
  obtain ⟨-, h⟩ := pathId_append_inj h
  -- a number does not begin with a letter
  obtain ⟨d, ds, hd⟩ := List.exists_cons_of_ne_nil (toDecimal_ne_nil (m + 1))
  have hdigit := mem_toDecimal (by rw [hd]; exact List.mem_cons_self)
  rw [hd] at h
  have hhead : d = 0x50 := List.head_eq_of_cons_eq h
  rw [hhead] at hdigit
  exact absurd hdigit.2 (by decide)

/-- **A key determines what the message is for.** -/
theorem Stream.IsKey.unique {id key : Str} {m m' : ℕ} {s s' : Stream} (h : s.IsKey id m key)
    (h' : s'.IsKey id m' key) : s = s' ∧ m = m' := by
  have hcolon (n : ℕ) : (0x3A : Byte) ∉ toDecimal n := notMem_toDecimal (.inr (by decide)) n
  have hhyphen (n : ℕ) : (0x2D : Byte) ∉ toDecimal n := notMem_toDecimal (.inl (by decide)) n
  cases s with
  | spawn p => exact h.elim
  | collective p =>
    obtain ⟨kType, rfl⟩ := h
    cases s' with
    | spawn p' => exact h'.elim
    | collective p' =>
      obtain ⟨kType', h'⟩ := h'
      rw [collectiveKey_eq, collectiveKey_eq] at h'
      obtain ⟨rfl, hrest⟩ := pathId_append_inj h'
      obtain ⟨hm, -⟩ := append_cons_inj_left (hcolon _) (hcolon _) hrest
      exact ⟨rfl, Nat.succ_injective (toDecimal_injective hm)⟩
    | p2p p' src dst => exact absurd h' (collectiveKey_ne_p2pKey id p p' m m' src dst kType)
  | p2p p src dst =>
    obtain rfl : key = p2pKey id p src dst m := h
    cases s' with
    | spawn p' => exact h'.elim
    | collective p' =>
      obtain ⟨kType, h'⟩ := h'
      exact absurd h'.symm (collectiveKey_ne_p2pKey id p' p m' m src dst kType)
    | p2p p' src' dst' =>
      have heq : p2pKey id p src dst m = p2pKey id p' src' dst' m' := h'
      rw [p2pKey_eq, p2pKey_eq] at heq
      obtain ⟨rfl, hrest⟩ := pathId_append_inj heq
      rw [List.append_cancel_left_eq] at hrest
      obtain ⟨hm, hranks⟩ := append_cons_inj_left (hcolon _) (hcolon _) hrest
      obtain ⟨hsrc, hdst⟩ := append_cons_inj_left (hhyphen _) (hhyphen _) hranks
      obtain rfl := toDecimal_injective hsrc
      obtain rfl := toDecimal_injective (List.tail_eq_of_cons_eq hdst)
      exact ⟨rfl, Nat.succ_injective (toDecimal_injective hm)⟩

/-! ### The contexts of a party -/

/-- The context at a path after some calls. -/
def contextAt (id : Str) (i : Fin W.size) (calls : List (Call W)) (p : Path) : Context W where
  id := pathId id p
  rank := i
  counter := callCount i calls (.collective p)
  p2pCounter d := callCount i calls (.p2p p d.1 d.2)
  childCounter := callCount i calls (.spawn p)

/-- The contexts after some calls. -/
def heldAfter (id : Str) (i : Fin W.size) (calls : List (Call W)) : Held W := fun p =>
  if created i calls p then some (contextAt id i calls p) else none

section Held

variable {id : Str} {i : Fin W.size} {calls : List (Call W)} {call : Call W} {p : Path}

theorem path_stream (call : Call W) : (call.stream i).path = call.path := by
  cases call <;> rfl

theorem callCount_snoc (s : Stream) : callCount i (calls ++ [call]) s =
    callCount i calls s + if call.stream i = s then 1 else 0 := by
  simp [callCount]

variable {s : Stream}

theorem callCount_snoc_of_ne (h : call.stream i ≠ s) :
    callCount i (calls ++ [call]) s = callCount i calls s := by
  rw [callCount_snoc, if_neg h, Nat.add_zero]

theorem callCount_snoc_self (h : call.stream i = s) :
    callCount i (calls ++ [call]) s = callCount i calls s + 1 := by
  rw [callCount_snoc, if_pos h]

theorem created_take {n : ℕ} (h : created i (calls.take n) p = true) :
    created i calls p = true := by
  induction p with
  | nil => rfl
  | cons c p ih =>
    rw [created, Bool.and_eq_true, decide_eq_true_eq] at h ⊢
    exact ⟨ih h.1, h.2.trans_le (List.take_sublist n calls).countP_le⟩

theorem Scoped.callCount_eq_zero (h : Scoped i calls) (hs : created i calls s.path = false) :
    callCount i calls s = 0 := by
  refine List.countP_eq_zero.2 fun call hmem heq => ?_
  obtain ⟨n, hn⟩ := List.getElem?_of_mem hmem
  have hcreated := created_take (h n call hn)
  rw [← path_stream, of_decide_eq_true heq, hs] at hcreated
  exact Bool.false_ne_true hcreated

theorem heldAfter_nil : heldAfter id i [] = Held.root id i := by
  funext p
  cases p with
  | nil => rfl
  | cons c p => simp [heldAfter, created, callCount, Held.root]

theorem heldAfter_of_created (h : created i calls p = true) :
    heldAfter id i calls p = some (contextAt id i calls p) := by
  rw [heldAfter, if_pos h]

theorem contextAt_snoc_of_ne (h : call.path ≠ p) :
    contextAt id i (calls ++ [call]) p = contextAt id i calls p := by
  have hcount (s : Stream) (hs : s.path = p) :
      callCount i (calls ++ [call]) s = callCount i calls s :=
    callCount_snoc_of_ne fun heq => h (by rw [← path_stream, heq, hs])
  simp only [contextAt, hcount (.collective p) rfl, hcount (.spawn p) rfl,
    fun src dst => hcount (.p2p p src dst) rfl]

/-! A call that is no `Spawn`. -/

theorem created_snoc_of_ne (h : ∀ p, call.stream i ≠ .spawn p) (p : Path) :
    created i (calls ++ [call]) p = created i calls p := by
  induction p with
  | nil => rfl
  | cons c p ih => rw [created, created, ih, callCount_snoc_of_ne (h p)]

theorem heldAfter_snoc (h : ∀ p, call.stream i ≠ .spawn p)
    (hcreated : created i calls call.path = true) :
    heldAfter id i (calls ++ [call]) = Function.update (heldAfter id i calls) call.path
      (some (contextAt id i (calls ++ [call]) call.path)) := by
  funext p
  by_cases hp : p = call.path
  · subst hp
    rw [Function.update_self, heldAfter, created_snoc_of_ne h, if_pos hcreated]
  · rw [Function.update_of_ne hp, heldAfter, heldAfter, created_snoc_of_ne h,
      contextAt_snoc_of_ne (Ne.symm hp)]

theorem contextAt_collective (a : Collective W) :
    contextAt id i (calls ++ [.collective p a]) p = (contextAt id i calls p).nextId.2 := by
  simp [contextAt, Context.nextId, callCount_snoc, Call.stream]

theorem contextAt_p2p {src dst : ℕ} (h : call.stream i = .p2p p src dst) :
    contextAt id i (calls ++ [call]) p = { contextAt id i calls p with
      p2pCounter := Function.update (contextAt id i calls p).p2pCounter (src, dst)
        (callCount i calls (.p2p p src dst) + 1) } := by
  have hcollective : call.stream i ≠ .collective p := by simp [h]
  have hspawn : call.stream i ≠ .spawn p := by simp [h]
  simp only [contextAt, callCount_snoc_of_ne hcollective, callCount_snoc_of_ne hspawn]
  congr 1
  funext d
  by_cases hd : d = (src, dst)
  · rw [hd, Function.update_self, callCount_snoc_self h]
  · rw [Function.update_of_ne hd, callCount_snoc_of_ne]
    exact fun heq => hd (by cases d; simp_all)

theorem nextP2pId_contextAt {src dst : ℕ} (h : call.stream i = .p2p p src dst)
    (hlt : callCount i calls (.p2p p src dst) + 1 < 2 ^ 31) :
    (contextAt id i calls p).nextP2pId src dst =
      .ok (p2pKey id p src dst (callCount i calls (.p2p p src dst)),
        contextAt id i (calls ++ [call]) p) := by
  rw [contextAt_p2p h]
  exact Context.nextP2pId_of_lt _ hlt

/-! `Spawn`. -/

theorem created_snoc_spawn (hscoped : Scoped i calls) (h : created i calls p = true) (q : Path) :
    created i (calls ++ [.spawn p]) q = true ↔
      created i calls q = true ∨ q = callCount i calls (.spawn p) :: p := by
  induction q with
  | nil => simp [created]
  | cons d q ih =>
    rw [created, created, Bool.and_eq_true, Bool.and_eq_true, decide_eq_true_eq,
      decide_eq_true_eq, ih, List.cons.injEq]
    by_cases hq : q = p
    · subst hq
      rw [callCount_snoc_self (show (Call.spawn q).stream i = .spawn q from rfl)]
      simp only [h, true_or, true_and, and_true]
      omega
    · rw [callCount_snoc_of_ne (by simpa [Call.stream] using Ne.symm hq)]
      simp only [hq, and_false, or_false]
      refine and_congr_left fun hd => or_iff_left fun heq => ?_
      -- the new context has no children
      have hzero : callCount i calls (.spawn q) = 0 := by
        refine hscoped.callCount_eq_zero ?_
        rw [Stream.path, heq, created, decide_eq_false (Nat.lt_irrefl _), Bool.and_false]
      omega

theorem heldAfter_spawn (hscoped : Scoped i calls) (h : created i calls p = true) :
    heldAfter id i (calls ++ [.spawn p]) =
      Function.update (Function.update (heldAfter id i calls) p
        (some (contextAt id i calls p).spawn.2)) (callCount i calls (.spawn p) :: p)
        (some (contextAt id i calls p).spawn.1) := by
  have hnew : created i calls (callCount i calls (.spawn p) :: p) = false := by
    rw [created, decide_eq_false (Nat.lt_irrefl _), Bool.and_false]
  have hne : p ≠ callCount i calls (.spawn p) :: p := (List.cons_ne_self _ _).symm
  funext q
  rw [heldAfter, if_congr (created_snoc_spawn hscoped h q) rfl rfl]
  by_cases hchild : q = callCount i calls (.spawn p) :: p
  · subst hchild
    have hzero (s : Stream) (hs : s.path = callCount i calls (.spawn p) :: p) :
        callCount i calls s = 0 := hscoped.callCount_eq_zero (hs ▸ hnew)
    rw [Function.update_self, if_pos (.inr rfl),
      contextAt_snoc_of_ne (show (Call.spawn p).path ≠ _ from hne)]
    simp only [contextAt, Context.spawn, Context.make, pathId, hzero (.collective _) rfl,
      hzero (.spawn _) rfl, fun src dst => hzero (.p2p _ src dst) rfl]
  rw [Function.update_of_ne hchild]
  by_cases hp : q = p
  · subst hp
    rw [if_pos (.inl h)]
    simp [contextAt, Context.spawn, callCount_snoc, Call.stream]
  · rw [Function.update_of_ne hp, contextAt_snoc_of_ne (Ne.symm hp)]
    exact if_congr (or_iff_left hchild) rfl rfl

end Held

/-! ### The messages of a call -/

/-- The messages of a call of party `i` that is number `m` of its stream. -/
def Call.actions (id : Str) (i : Fin W.size) (m : ℕ) :
    Call W → List (Action (Fin W.size) Str η)
  | spawn _ => []
  | collective p a => a.kind.actions i (collectiveKey id p m a.kind.kType)
  | send p dst _ => [.send dst (p2pKey id p i dst m)]
  | recv p src => [.recv src (p2pKey id p src i m)]

/-- Whether one more call of a stream is defined: the counter of messages is an `int`. -/
def Stream.Fits (m : ℕ) : Stream → Prop
  | p2p _ _ _ => m + 1 < 2 ^ 31
  | _ => True

section Step

variable {id : Str} {i : Fin W.size} {calls : List (Call W)} {call : Call W}
variable {p : Path}

theorem onContext_of_created {α : Type} (h : created i calls p = true)
    (f : Context W → LinkProc W η α) :
    Call.onContext (heldAfter id i calls) p f = f (contextAt id i calls p) := by
  rw [Call.onContext, heldAfter_of_created h]

theorem sendAsync_contextAt {dst : Fin W.size} {value : List Byte}
    (h : callCount i calls (.p2p p i dst) + 1 < 2 ^ 31) :
    ((contextAt id i calls p).sendAsync dst value : LinkProc W η (Context W)) = (do
      let ctx := contextAt id i (calls ++ [.send p dst value]) p
      ctx.sendAsyncInternal dst (p2pKey id p i dst (callCount i calls (.p2p p i dst))) value
      pure ctx) := by
  have hnext : (contextAt id i calls p).nextP2pId (contextAt id i calls p).rank dst = _ :=
    nextP2pId_contextAt (show (Call.send p dst value).stream i = _ from rfl) h
  rw [Context.sendAsync, hnext]
  rfl

theorem recv_contextAt {src : Fin W.size} (h : callCount i calls (.p2p p src i) + 1 < 2 ^ 31) :
    ((contextAt id i calls p).recv src : LinkProc W η (List Byte × Context W)) = (do
      let ctx := contextAt id i (calls ++ [.recv p src]) p
      let value ← ctx.recvInternal src (p2pKey id p src i (callCount i calls (.p2p p src i)))
      pure (value, ctx)) := by
  have hnext : (contextAt id i calls p).nextP2pId src (contextAt id i calls p).rank = _ :=
    nextP2pId_contextAt (show (Call.recv p src).stream i = _ from rfl) h
  rw [Context.recv, hnext]
  rfl

/-- **The actions of a call.** -/
theorem shape_run (hcreated : created i calls call.path = true) (hvalid : call.Valid i)
    (hfits : (call.stream i).Fits (callCount i calls (call.stream i))) :
    (call.run (heldAfter id i calls) : LinkProc W η (Held W)).Shape
      (call.actions id i (callCount i calls (call.stream i))) := by
  cases call with
  | spawn p =>
    rw [Call.run, onContext_of_created (p := p) hcreated]
    exact .ret _
  | collective p a =>
    rw [Call.run, onContext_of_created (p := p) hcreated, Call.actions,
      ← List.append_nil (Kind.actions _ _ _)]
    exact (Collective.shape_run (contextAt id i calls p) a hvalid).bind fun _ => .ret _
  | send p dst value =>
    rw [Call.run, onContext_of_created (p := p) hcreated, sendAsync_contextAt hfits]
    have hsend := Context.shape_sendAsyncInternal (η := η)
      (contextAt id i (calls ++ [.send p dst value]) p) hvalid
    exact ((hsend _ value).bind fun _ => .ret _).bind fun _ => .ret _
  | recv p src =>
    rw [Call.run, onContext_of_created (p := p) hcreated, recv_contextAt hfits]
    have hrecv := Context.shape_recvInternal (η := η)
      (contextAt id i (calls ++ [.recv p src]) p) hvalid
    exact ((hrecv _).bind fun _ => .ret _).bind fun _ => .ret _

/-- **The contexts after a call.** -/
theorem meets_run (hscoped : Scoped i calls) (hcreated : created i calls call.path = true)
    (hfits : (call.stream i).Fits (callCount i calls (call.stream i))) :
    (call.run (heldAfter id i calls) : LinkProc W η (Held W)).Meets i (fun _ => True)
      (· = heldAfter id i (calls ++ [call])) := by
  cases call with
  | spawn p =>
    rw [Call.run, onContext_of_created (p := p) hcreated, heldAfter_spawn (p := p) hscoped hcreated]
    exact rfl
  | collective p a =>
    rw [Call.run, onContext_of_created (p := p) hcreated,
      heldAfter_snoc (by simp [Call.stream]) hcreated]
    refine (Collective.meets_run (contextAt id i calls p) a i).bind fun ctx hctx => ?_
    rw [hctx, ← contextAt_collective a]
    exact rfl
  | send p dst value =>
    rw [Call.run, onContext_of_created (p := p) hcreated, sendAsync_contextAt hfits, Proc.bind_bind,
      heldAfter_snoc (by simp [Call.stream]) hcreated]
    exact (Proc.meets_true i _).bind fun _ _ => rfl
  | recv p src =>
    rw [Call.run, onContext_of_created (p := p) hcreated, recv_contextAt hfits, Proc.bind_bind,
      heldAfter_snoc (by simp [Call.stream]) hcreated]
    exact (Proc.meets_true i _).bind fun _ _ => rfl

theorem run_of_not_fits (hcreated : created i calls call.path = true)
    (hfits : ¬(call.stream i).Fits (callCount i calls (call.stream i))) :
    (call.run (heldAfter id i calls) : LinkProc W η (Held W)) = .throw .undefinedBehaviour := by
  cases call with
  | spawn p => exact absurd trivial hfits
  | collective p a => exact absurd trivial hfits
  | send p dst value =>
    have hnext := (contextAt id i calls p).nextP2pId_of_le (Nat.not_lt.1 hfits)
    rw [Call.run, onContext_of_created (p := p) hcreated, Context.sendAsync]
    exact hnext ▸ rfl
  | recv p src =>
    have hnext := (contextAt id i calls p).nextP2pId_of_le (Nat.not_lt.1 hfits)
    rw [Call.run, onContext_of_created (p := p) hcreated, Context.recv]
    exact hnext ▸ rfl

end Step

/-! ### All calls of a party -/

section Calls

variable {id : Str} {i : Fin W.size} {calls : List (Call W)}

/-- The messages of call `n`. -/
def callActions (id : Str) (i : Fin W.size) (calls : List (Call W)) (n : ℕ) :
    List (Action (Fin W.size) Str ℕ) :=
  match calls[n]? with
  | some call => call.actions id i (callCount i (calls.take n) (call.stream i))
  | none => []

/-- No call overflows its counter. -/
def AllFit (i : Fin W.size) (calls : List (Call W)) : Prop :=
  ∀ n (call : Call W), calls[n]? = some call →
    (call.stream i).Fits (callCount i (calls.take n) (call.stream i))

theorem Scoped.take (h : Scoped i calls) (n : ℕ) : Scoped i (calls.take n) := by
  intro k call hk
  rw [List.getElem?_take] at hk
  split at hk
  · next hlt =>
    rw [List.take_take, Nat.min_eq_left hlt.le]
    exact h k call hk
  · contradiction

variable {n : ℕ} {call : Call W}

theorem take_succ_of_getElem? (h : calls[n]? = some call) :
    calls.take (n + 1) = calls.take n ++ [call] := by
  rw [List.take_add_one, h]
  rfl

theorem drop_of_getElem? (h : calls[n]? = some call) :
    calls.drop n = call :: calls.drop (n + 1) := by
  obtain ⟨hlt, rfl⟩ := List.getElem?_eq_some_iff.1 h
  exact List.drop_eq_getElem_cons hlt

variable {m : ℕ}

theorem shape_runCalls (hscoped : Scoped i calls) (hvalid : ∀ call ∈ calls, call.Valid i)
    (hfits : AllFit i calls) (h : n + m = calls.length) :
    (runCalls n (calls.drop n) (heldAfter id i (calls.take n))).Shape
      ((List.range' n m).flatMap fun n => .mark n :: callActions id i calls n) := by
  induction m generalizing n with
  | zero =>
    rw [List.drop_eq_nil_of_le (show calls.length ≤ n from h.ge)]
    exact .ret _
  | succ m ih =>
    obtain ⟨call, hcall⟩ : ∃ call, calls[n]? = some call :=
      ⟨_, List.getElem?_eq_getElem (by omega)⟩
    have hrest := ih (n := n + 1) (by omega)
    rw [take_succ_of_getElem? hcall] at hrest
    rw [drop_of_getElem? hcall, List.range'_succ, List.flatMap_cons, callActions, hcall]
    refine .mark (Proc.Shape.bind_of_meets (p := call.run (heldAfter id i (calls.take n))) ?_
      (meets_run (hscoped.take n) (hscoped n call hcall) (hfits n call hcall)) ?_)
    · exact shape_run (hscoped n call hcall) (hvalid call (List.mem_of_getElem? hcall))
        (hfits n call hcall)
    · rintro held rfl
      exact hrest

theorem fits_of_shape (hscoped : Scoped i calls) (hvalid : ∀ call ∈ calls, call.Valid i)
    (h : n + m = calls.length) {l : List (Action (Fin W.size) Str ℕ)}
    (hshape : (runCalls n (calls.drop n) (heldAfter id i (calls.take n))).Shape l) {k : ℕ}
    (hk : n ≤ k) (hcall : calls[k]? = some call) :
    (call.stream i).Fits (callCount i (calls.take k) (call.stream i)) := by
  induction m generalizing n l with
  | zero =>
    obtain ⟨hlt, -⟩ := List.getElem?_eq_some_iff.1 hcall
    omega
  | succ m ih =>
    obtain ⟨first, hfirst⟩ : ∃ call, calls[n]? = some call :=
      ⟨_, List.getElem?_eq_getElem (by omega)⟩
    rw [drop_of_getElem? hfirst] at hshape
    have hcreated := hscoped n first hfirst
    cases hshape with
    | mark hshape =>
      by_cases hfits : (first.stream i).Fits (callCount i (calls.take n) (first.stream i))
      · obtain rfl | hlt := hk.eq_or_lt
        · rw [hcall, Option.some_inj] at hfirst
          exact hfirst ▸ hfits
        · obtain ⟨held, l', rfl, hrest⟩ := Proc.Shape.of_bind
            (shape_run hcreated (hvalid first (List.mem_of_getElem? hfirst)) hfits)
            (meets_run (hscoped.take n) hcreated hfits) hshape
          rw [← take_succ_of_getElem? hfirst] at hrest
          exact ih (by omega) hrest hlt
      · -- the program would be undefined here
        have hthrow : (first.run (heldAfter id i (calls.take n)) : LinkProc W ℕ (Held W)) = _ :=
          run_of_not_fits hcreated hfits
        have hbad : (first.run (heldAfter id i (calls.take n)) >>=
          runCalls (n + 1) (calls.drop (n + 1))).Shape _ := hshape
        rw [hthrow] at hbad
        exact nomatch hbad

/-- The counters of messages do not overflow if and only if there are few messages. -/
theorem allFit_iff : AllFit i calls ↔ ∀ p src dst, callCount i calls (.p2p p src dst) < 2 ^ 31 := by
  constructor
  · intro hfits p src dst
    have hbound (n : ℕ) : callCount i (calls.take n) (.p2p p src dst) < 2 ^ 31 := by
      induction n with
      | zero => exact Nat.two_pow_pos 31
      | succ n ih =>
        cases hcall : calls[n]? with
        | none =>
          rw [List.take_add_one, hcall, Option.toList_none, List.append_nil]
          exact ih
        | some call =>
          have hfit := hfits n call hcall
          rw [take_succ_of_getElem? hcall, callCount_snoc]
          split
          · next hs =>
            rw [hs] at hfit
            exact hfit
          · exact ih
    have hall := hbound calls.length
    rwa [List.take_length] at hall
  · intro hbound n call hcall
    cases hs : call.stream i with
    | spawn p => exact trivial
    | collective p => exact trivial
    | p2p p src dst =>
      have hle : callCount i (calls.take (n + 1)) (.p2p p src dst) ≤
          callCount i calls (.p2p p src dst) := (List.take_sublist _ _).countP_le
      rw [take_succ_of_getElem? hcall, callCount_snoc_self hs] at hle
      exact hle.trans_lt (hbound p src dst)

theorem isKey_of_mem_actions {a : Action (Fin W.size) Str η} (h : a ∈ call.actions id i m) :
    ∃ key, a.key? = some key ∧ (call.stream i).IsKey id m key := by
  cases call with
  | spawn p => exact absurd h List.not_mem_nil
  | collective p c =>
    obtain ⟨j, -, rfl | rfl⟩ := Kind.eq_of_mem_actions h <;> exact ⟨_, rfl, _, rfl⟩
  | send p dst value => exact ⟨_, List.mem_singleton.1 h ▸ rfl, rfl⟩
  | recv p src => exact ⟨_, List.mem_singleton.1 h ▸ rfl, rfl⟩

theorem nodup_call (call : Call W) (m : ℕ) :
    (call.actions id i m : List (Action (Fin W.size) Str η)).Nodup := by
  cases call with
  | spawn p => exact List.nodup_nil
  | collective p a => exact Kind.nodup_actions i _ a.kind
  | send p dst value => exact List.nodup_singleton _
  | recv p src => exact List.nodup_singleton _

theorem index_eq {n' : ℕ} {call' : Call W} (h : calls[n]? = some call)
    (h' : calls[n']? = some call') (hs : call.stream i = call'.stream i)
    (hm : callCount i (calls.take n) (call.stream i) =
      callCount i (calls.take n') (call'.stream i)) :
    n = n' := by
  -- the count grows at the first of two calls of a stream
  have hlt {k k' : ℕ} {c c' : Call W} (hc : calls[k]? = some c) (hcs : c.stream i = c'.stream i)
      (hk : k < k') : callCount i (calls.take k) (c.stream i) <
        callCount i (calls.take k') (c'.stream i) := by
    have hle : callCount i (calls.take (k + 1)) (c'.stream i) ≤
        callCount i (calls.take k') (c'.stream i) :=
      (List.take_sublist_take_left hk).countP_le
    rw [take_succ_of_getElem? hc, callCount_snoc_self hcs, ← hcs] at hle
    rw [← hcs]
    exact hle
  rcases Nat.lt_trichotomy n n' with hn | hn | hn
  · exact absurd hm (hlt h hs hn).ne
  · exact hn
  · exact absurd hm.symm (hlt h' hs.symm hn).ne

end Calls

namespace Programs

variable (P : Programs W)

/-- The program of a party. -/
def party (i : Fin W.size) : LinkProc W ℕ (Held W) :=
  runCalls 0 (P.calls i) (.root P.id i)

/-- What call `n` of party `i` is for: its stream and its number in it. -/
def use (i : Fin W.size) (n : ℕ) : Option (Stream × ℕ) :=
  (P.calls i)[n]?.map fun call =>
    (call.stream i, callCount i ((P.calls i).take n) (call.stream i))

/-- The actions of party `i`, if `acts i n` are those of its call `n`. -/
def actions (acts : Fin W.size → ℕ → List (Action (Fin W.size) Str ℕ)) (i : Fin W.size) :
    List (Action (Fin W.size) Str ℕ) :=
  (List.range (P.calls i).length).flatMap fun n => .mark n :: acts i n

/-- Messages find their receivers. -/
structure MatchedBy (acts : Fin W.size → ℕ → List (Action (Fin W.size) Str ℕ)) : Prop where
  /-- Whatever a party receives, its calls make these actions. -/
  performs : ∀ i, (P.party i).Shape (P.actions acts i)
  /-- The `k`-th `Send` from `i` to `j` and the `k`-th `Recv` at `j` from `i` have the same key. -/
  p2p : ∀ (i j : Fin W.size) p k n n', P.use i n = some (.p2p p i j, k) →
    P.use j n' = some (.p2p p i j, k) →
    ∃ key, acts i n = [.send j key] ∧ acts j n' = [.recv i key]
  /-- Messages of a collective algorithm are received in the same call of it. -/
  collective : ∀ i j p m n n' key, P.use i n = some (.collective p, m) →
    P.use j n' = some (.collective p, m) → (.send j key ∈ acts i n ↔ .recv i key ∈ acts j n')
  /-- Messages are received nowhere else. -/
  within : ∀ i j key n n', .send j key ∈ acts i n → .recv i key ∈ acts j n' →
    P.use i n = P.use j n'
  /-- A party neither sends to a party nor receives from it under a key twice. -/
  unique : ∀ i, (P.actions acts i).Nodup

/-- Messages find their receivers, and in no interleaving is a message sent twice under a key or
dropped. -/
def Matched : Prop :=
  (∃ acts, P.MatchedBy acts) ∧
    ∀ tr c, Run (.start P.party) tr c → (∀ s, sends s tr ≤ 1) ∧ ∀ e, Label.drop e ∉ tr

variable {P} {i j : Fin W.size} {n n' : ℕ}
variable {m : ℕ}

theorem use_eq_some {s : Stream} (h : P.use i n = some (s, m)) :
    ∃ call, (P.calls i)[n]? = some call ∧ call.stream i = s ∧
      callCount i ((P.calls i).take n) s = m := by
  obtain ⟨call, hcall, heq⟩ := Option.map_eq_some_iff.1 h
  obtain ⟨rfl, rfl⟩ := Prod.mk.inj heq
  exact ⟨call, hcall, rfl, rfl⟩

theorem use_of_mem {a : Action (Fin W.size) Str ℕ}
    (h : a ∈ callActions P.id i (P.calls i) n) :
    ∃ key s m, a.key? = some key ∧ P.use i n = some (s, m) ∧ s.IsKey P.id m key := by
  rw [callActions] at h
  split at h
  · next call hcall =>
    obtain ⟨key, ha, hkey⟩ := isKey_of_mem_actions h
    exact ⟨key, _, _, ha, by rw [use, hcall, Option.map_some], hkey⟩
  · exact absurd h List.not_mem_nil

theorem use_eq_of_key {a a' : Action (Fin W.size) Str ℕ}
    (h : a ∈ callActions P.id i (P.calls i) n) (h' : a' ∈ callActions P.id j (P.calls j) n')
    (heq : a.key? = a'.key?) : ∃ u, P.use i n = some u ∧ P.use j n' = some u := by
  obtain ⟨key, s, m, hkey, huse, hs⟩ := use_of_mem h
  obtain ⟨key', s', m', hkey', huse', hs'⟩ := use_of_mem h'
  obtain rfl := Option.some.inj ((hkey.symm.trans heq).trans hkey')
  obtain ⟨rfl, rfl⟩ := hs.unique hs'
  exact ⟨_, huse, huse'⟩

variable {key : Str} {p : Path}

theorem send_of_use {k : ℕ} (h : P.use i n = some (.p2p p i j, k)) :
    callActions P.id i (P.calls i) n = [.send j (p2pKey P.id p i j k)] := by
  obtain ⟨call, hcall, hs, rfl⟩ := use_eq_some h
  have hvalid := P.valid i call (List.mem_of_getElem? hcall)
  rw [callActions, hcall]
  cases call with
  | spawn q => simp [Call.stream] at hs
  | collective q a => simp [Call.stream] at hs
  | send q dst value =>
    obtain ⟨rfl, -, hdst⟩ := Stream.p2p.inj hs
    obtain rfl := Fin.val_injective hdst
    rfl
  | recv q src =>
    obtain ⟨-, hsrc, -⟩ := Stream.p2p.inj hs
    exact absurd (Fin.val_injective hsrc) hvalid

theorem recv_of_use {k : ℕ} (h : P.use j n = some (.p2p p i j, k)) :
    callActions P.id j (P.calls j) n = [.recv i (p2pKey P.id p i j k)] := by
  obtain ⟨call, hcall, hs, rfl⟩ := use_eq_some h
  have hvalid := P.valid j call (List.mem_of_getElem? hcall)
  rw [callActions, hcall]
  cases call with
  | spawn q => simp [Call.stream] at hs
  | collective q a => simp [Call.stream] at hs
  | send q dst value =>
    obtain ⟨-, -, hdst⟩ := Stream.p2p.inj hs
    exact absurd (Fin.val_injective hdst) hvalid
  | recv q src =>
    obtain ⟨rfl, hsrc, -⟩ := Stream.p2p.inj hs
    obtain rfl := Fin.val_injective hsrc
    rfl

theorem collective_of_use (h : P.use i n = some (.collective p, m)) :
    ∃ a, (P.calls i)[n]? = some (.collective p a) ∧
      callCount i ((P.calls i).take n) (.collective p) = m ∧
      callActions P.id i (P.calls i) n =
        a.kind.actions i (collectiveKey P.id p m a.kind.kType) := by
  obtain ⟨call, hcall, hs, rfl⟩ := use_eq_some h
  cases call with
  | spawn q => simp [Call.stream] at hs
  | collective q a =>
    obtain rfl := Stream.collective.inj hs
    exact ⟨a, hcall, rfl, by rw [callActions, hcall]; rfl⟩
  | send q dst value => simp [Call.stream] at hs
  | recv q src => simp [Call.stream] at hs

/-- **Collective algorithms match.** -/
theorem send_mem_iff_recv_mem (h : P.use i n = some (.collective p, m))
    (h' : P.use j n' = some (.collective p, m)) :
    .send j key ∈ callActions P.id i (P.calls i) n ↔
      .recv i key ∈ callActions P.id j (P.calls j) n' := by
  obtain ⟨a, ha, hm, hacts⟩ := collective_of_use h
  obtain ⟨b, hb, hm', hacts'⟩ := collective_of_use h'
  rw [hacts, hacts', P.agree i j n n' p a b ha hb (hm.trans hm'.symm)]
  constructor
  · intro hmem
    obtain ⟨k, -, heq | heq⟩ := Kind.eq_of_mem_actions hmem
    · obtain ⟨-, rfl⟩ := Action.send.inj heq
      exact Kind.send_mem_actions_iff.1 hmem
    · contradiction
  · intro hmem
    obtain ⟨k, -, heq | heq⟩ := Kind.eq_of_mem_actions hmem
    · contradiction
    · obtain ⟨-, rfl⟩ := Action.recv.inj heq
      exact Kind.send_mem_actions_iff.2 hmem

/-- **Messages are received nowhere else.** -/
theorem use_eq_of_match (h : .send j key ∈ callActions P.id i (P.calls i) n)
    (h' : .recv i key ∈ callActions P.id j (P.calls j) n') : P.use i n = P.use j n' := by
  obtain ⟨u, huse, huse'⟩ := use_eq_of_key h h' rfl
  rw [huse, huse']

theorem index_eq_of_use {s : Stream} (h : P.use i n = some (s, m)) (h' : P.use i n' = some (s, m)) :
    n = n' := by
  obtain ⟨call, hcall, rfl, hm⟩ := use_eq_some h
  obtain ⟨call', hcall', hs, hm'⟩ := use_eq_some h'
  exact index_eq hcall hcall' hs.symm (by rw [hm, hs, hm'])

/-- **No action is repeated.** -/
theorem nodup_actions_callActions (P : Programs W) (i : Fin W.size) :
    (P.actions (fun i => callActions P.id i (P.calls i)) i).Nodup := by
  refine List.nodup_flatMap.2 ⟨fun n _ => List.nodup_cons.2 ⟨fun hmem => ?_, ?_⟩, ?_⟩
  · obtain ⟨key, s, m, hkey, -⟩ := use_of_mem hmem
    contradiction
  · dsimp only [callActions]
    split
    · exact nodup_call _ _
    · exact List.nodup_nil
  · refine List.nodup_range.imp fun {n n'} hne => List.disjoint_left.2 fun a ha ha' => hne ?_
    rcases List.mem_cons.1 ha with rfl | ha
    · rcases List.mem_cons.1 ha' with heq | ha'
      · exact Action.mark.inj heq
      · obtain ⟨key, s, m, hkey, -⟩ := use_of_mem ha'
        contradiction
    · rcases List.mem_cons.1 ha' with rfl | ha'
      · obtain ⟨key, s, m, hkey, -⟩ := use_of_mem ha
        contradiction
      · obtain ⟨⟨s, m⟩, huse, huse'⟩ := use_eq_of_key ha ha' rfl
        exact index_eq_of_use huse huse'

theorem matchedBy_callActions (P : Programs W) (hfits : ∀ i, AllFit i (P.calls i)) :
    P.MatchedBy fun i => callActions P.id i (P.calls i) where
  performs i := by
    have hshape : (runCalls 0 ((P.calls i).drop 0)
        (heldAfter P.id i ((P.calls i).take 0))).Shape _ :=
      shape_runCalls (P.scope i) (P.valid i) (hfits i) (Nat.zero_add _)
    rwa [List.take_zero, heldAfter_nil, List.drop_zero, ← List.range_eq_range'] at hshape
  p2p i j p k n n' h h' := ⟨_, send_of_use h, recv_of_use h'⟩
  collective i j p m n n' key := send_mem_iff_recv_mem
  within i j key n n' := use_eq_of_match
  unique := P.nodup_actions_callActions

theorem allFit_of_performs (P : Programs W) {i : Fin W.size}
    {l : List (Action (Fin W.size) Str ℕ)} (h : (P.party i).Shape l) : AllFit i (P.calls i) := by
  intro n call hcall
  have hshape : (runCalls 0 ((P.calls i).drop 0)
      (heldAfter P.id i ((P.calls i).take 0))).Shape l := by
    rw [List.take_zero, heldAfter_nil]
    exact h
  exact fits_of_shape (P.scope i) (P.valid i) (Nat.zero_add _) hshape (Nat.zero_le n) hcall

/-- **The keys of messages.** Messages find their receivers, and nothing else, in all programs in
which no party makes `2 ^ 31` calls `Send` or `Recv` in one direction on one context, and only in
these. -/
theorem matched_iff (P : Programs W) :
    P.Matched ↔ ∀ i p src dst, callCount i (P.calls i) (.p2p p src dst) < 2 ^ 31 := by
  constructor
  · rintro ⟨⟨acts, hacts⟩, -⟩ i
    exact allFit_iff.1 (P.allFit_of_performs (hacts.performs i))
  · intro h
    have hmatched := P.matchedBy_callActions fun i => allFit_iff.2 (h i)
    exact ⟨⟨_, hmatched⟩, fun tr c hrun =>
      ⟨hrun.sends_le_one hmatched.performs hmatched.unique,
        hrun.drop_notMem hmatched.performs hmatched.unique⟩⟩

/-- Two parties, one of which sends `n` messages to the other. -/
def oneWay (n : ℕ) : Programs ⟨2, Nat.two_pos, by decide⟩ where
  id := []
  calls := ![List.replicate n (.send [] 1 []), List.replicate n (.recv [] 0)]
  scope i n call h := by
    have hmem := List.mem_of_getElem? h
    fin_cases i <;> rw [List.eq_of_mem_replicate hmem] <;> rfl
  valid i call hmem := by
    fin_cases i
    · rw [List.eq_of_mem_replicate hmem]
      exact Fin.ne_of_val_ne Nat.one_ne_zero
    · rw [List.eq_of_mem_replicate hmem]
      exact Fin.ne_of_val_ne Nat.zero_ne_one
  agree i j n n' p a b h _ _ := by
    have hmem := List.mem_of_getElem? h
    fin_cases i <;> cases List.eq_of_mem_replicate hmem

theorem callCount_oneWay (n : ℕ) : callCount 0 ((oneWay n).calls 0) (.p2p [] 0 1) = n := by
  have hcalls : (oneWay n).calls 0 = List.replicate n (.send [] 1 []) := rfl
  rw [hcalls, callCount, List.countP_replicate]
  exact if_pos (by decide)

/-- The counter overflows at message `2 ^ 31`. -/
theorem not_matched_oneWay : ¬(oneWay (2 ^ 31)).Matched := by
  rintro ⟨⟨acts, hacts⟩, -⟩
  have hlt := allFit_iff.1 ((oneWay (2 ^ 31)).allFit_of_performs (hacts.performs 0)) [] 0 1
  rw [callCount_oneWay] at hlt
  exact Nat.lt_irrefl _ hlt

end Programs

end Yacl.Link
