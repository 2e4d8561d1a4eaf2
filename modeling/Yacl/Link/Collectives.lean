import Yacl.Link.Barrier
import Yacl.Link.Broadcast

/-!
# The collective algorithms

`AllGather`, `Gather` and `Scatter` (`yacl/link/algorithm`) beside `Broadcast` and `Barrier`, and
what the five have in common: a call takes one number of the context, **all its messages have one
key**, made of that number and the name of the algorithm, no message goes twice to the same party
(`Kind.nodup_actions`), and **party `i` sends to party `j` if and only if `j` receives from `i`**
(`Kind.send_mem_actions_iff`).

The versions of `AllGather` and `Gather` for vectors pack the buffers into one and call the version
for one buffer.
-/

open Bytes Loop Network

namespace Yacl.Link

variable {W : World} {η : Type}

/-! ### The algorithms -/

/-- `AllGatherImpl`. -/
def allGather (ctx : Context W) (input : List Byte) :
    LinkProc W η (List (List Byte) × Context W) := do
  let (event, ctx) := ctx.nextEvent "ALLGATHER"
  -- broadcast to all
  forLoop W.size (fun idx _ =>
    if idx = ctx.rank then pure () else ctx.sendAsyncInternal idx event input) ()
  -- gather all
  let outputs ← forLoop W.size (fun idx outputs =>
    if idx = ctx.rank then pure (outputs.set idx input)
    else do
      let value ← ctx.recvInternal idx event
      pure (outputs.set idx value)) (List.replicate W.size [])
  pure (outputs, ctx)

/-- `GatherImpl`. -/
def gather (ctx : Context W) (input : List Byte) (root : ℕ) :
    LinkProc W η (List (List Byte) × Context W) := do
  let (event, ctx) := ctx.nextEvent "GATHER"
  if root = ctx.rank then
    let res ← forLoop W.size (fun idx res =>
      if idx = ctx.rank then pure (res.set idx input)
      else do
        let value ← ctx.recvInternal idx event
        pure (res.set idx value)) (List.replicate W.size [])
    pure (res, ctx)
  else
    ctx.sendAsyncInternal root event input
    pure ([], ctx)

/-- `Scatter`. -/
def scatter (ctx : Context W) (inputs : List (List Byte)) (root : ℕ) :
    LinkProc W η (List Byte × Context W) := do
  let (event, ctx) := ctx.nextEvent "SCATTER"
  if root = ctx.rank then
    let size := W.size
    Proc.ofExcept (enforce (inputs.length = size) "inputs.size() == ctx->WorldSize()"
      s!"number of input={inputs.length} does not match world_size={size}")
    forLoop W.size (fun idx _ =>
      if idx = ctx.rank then pure ()
      else do
        let value ← Proc.ofExcept (vecGet inputs idx)
        ctx.sendAsyncInternal idx event value) ()
    let value ← Proc.ofExcept (vecGet inputs root)
    pure (value, ctx)
  else
    let value ← ctx.recvInternal root event
    pure (value, ctx)

/-- A call of a collective algorithm, with the data of one party. -/
inductive Collective (W : World) where
  | broadcast (input : List Byte) (root : Fin W.size)
  | barrier
  | allGather (input : List Byte)
  | gather (input : List Byte) (root : Fin W.size)
  | scatter (inputs : List (List Byte)) (root : Fin W.size)

/-- What the parties agree on in a call. -/
inductive Kind (W : World) where
  | broadcast (root : Fin W.size)
  | barrier
  | allGather
  | gather (root : Fin W.size)
  | scatter (root : Fin W.size)

/-- `kType` of an algorithm. -/
def Kind.kType : Kind W → String
  | broadcast _ => "BCAST"
  | barrier => "BARRIER"
  | allGather => "ALLGATHER"
  | gather _ => "GATHER"
  | scatter _ => "SCATTER"

namespace Collective

/-- The agreed part of a call. -/
def kind : Collective W → Kind W
  | broadcast _ root => .broadcast root
  | barrier => .barrier
  | allGather _ => .allGather
  | gather _ root => .gather root
  | scatter _ root => .scatter root

/-- The root of a `Scatter` has an input for every party. -/
def HasInputs (i : Fin W.size) : Collective W → Prop
  | scatter inputs root => i = root → inputs.length = W.size
  | _ => True

/-- The call: the context after it. -/
def run (ctx : Context W) : Collective W → LinkProc W η (Context W)
  | broadcast input root => do
    let (_, ctx) ← Broadcast.broadcast ctx input root
    pure ctx
  | barrier => Barrier.barrier ctx
  | allGather input => do
    let (_, ctx) ← Link.allGather ctx input
    pure ctx
  | gather input root => do
    let (_, ctx) ← Link.gather ctx input root
    pure ctx
  | scatter inputs root => do
    let (_, ctx) ← Link.scatter ctx inputs root
    pure ctx

end Collective

/-! ### The messages of a call -/

/-- The other parties. -/
def World.others (i : Fin W.size) : List (Fin W.size) :=
  (List.finRange W.size).filter (· ≠ i)

/-- The messages of a call at party `i`. -/
def Kind.actions (i : Fin W.size) (event : Str) : Kind W → List (Action (Fin W.size) Str η)
  | broadcast root => (Broadcast.plan root event i).map Prod.snd
  | barrier => Barrier.actions i event
  | allGather =>
    (World.others i).map (.send · event) ++ (World.others i).map (.recv · event)
  | gather root => if i = root then (World.others i).map (.recv · event) else [.send root event]
  | scatter root => if i = root then (World.others i).map (.send · event) else [.recv root event]

theorem World.mem_others {i j : Fin W.size} : j ∈ World.others i ↔ j ≠ i := by
  simp [World.others]

theorem World.nodup_others (i : Fin W.size) : (World.others i).Nodup :=
  (List.nodup_finRange W.size).filter _

theorem shape_others {α : Type} (i : Fin W.size) (act : Fin W.size → Action (Fin W.size) Str η)
    {body : ℕ → α → LinkProc W η α} (hself : ∀ s, (body i s).Shape [])
    (hother : ∀ j, j ≠ i → ∀ s, (body j s).Shape [act j]) (s : α) :
    (forLoop W.size body s).Shape ((World.others i).map act) := by
  have hacts : (World.others i).map act =
      (List.range W.size).flatMap fun k =>
        if h : k < W.size then if (⟨k, h⟩ : Fin W.size) = i then [] else [act ⟨k, h⟩] else [] := by
    rw [← List.map_coe_finRange_eq_range, List.flatMap_map, World.others]
    induction List.finRange W.size with
    | nil => rfl
    | cons j l ih =>
      rw [List.flatMap_cons, ← ih, dif_pos j.2]
      by_cases hj : j = i
      · rw [if_pos hj, List.filter_cons_of_neg (by simpa using hj)]
        rfl
      · rw [if_neg hj, List.filter_cons_of_pos (by simpa using hj)]
        rfl
  rw [hacts]
  refine Proc.shape_forLoop (fun k hk s => ?_) s
  rw [dif_pos hk]
  split
  · next hki =>
    subst hki
    exact hself s
  · next hki => exact hother ⟨k, hk⟩ hki s

namespace Context

theorem shape_sendAsyncInternal (ctx : Context W) {dst : Fin W.size} (h : dst ≠ ctx.rank)
    (key : Str) (value : List Byte) :
    (ctx.sendAsyncInternal dst key value : LinkProc W η Unit).Shape [.send dst key] := by
  rw [sendAsyncInternal, channel_eq ctx h.symm]
  exact .send (.ret ())

theorem shape_recvInternal (ctx : Context W) {src : Fin W.size} (h : src ≠ ctx.rank) (key : Str) :
    (ctx.recvInternal src key : LinkProc W η (List Byte)).Shape [.recv src key] := by
  rw [recvInternal, channel_eq ctx h.symm]
  exact .recv .ret

end Context

theorem shape_recvOthers (ctx : Context W) (event : Str) (input : List Byte)
    (outputs : List (List Byte)) :
    (forLoop W.size (fun idx outputs =>
      if idx = ctx.rank then pure (outputs.set idx input)
      else do
        let value ← ctx.recvInternal idx event
        pure (outputs.set idx value)) outputs : LinkProc W η (List (List Byte))).Shape
      ((World.others ctx.rank).map (.recv · event)) := by
  refine shape_others ctx.rank (.recv · event) (fun s => ?_) (fun j hj s => ?_) outputs
  · rw [if_pos rfl]
    exact .ret _
  · rw [if_neg (Fin.val_ne_of_ne hj)]
    exact (ctx.shape_recvInternal hj event).bind fun _ => .ret _

theorem shape_sendOthers (ctx : Context W) (event : Str) {send : ℕ → LinkProc W η Unit}
    (hsend : ∀ j : Fin W.size, j ≠ ctx.rank → (send j).Shape [.send j event]) :
    (forLoop W.size (fun idx _ => if idx = ctx.rank then pure () else send idx) () :
      LinkProc W η Unit).Shape ((World.others ctx.rank).map (.send · event)) := by
  refine shape_others ctx.rank (.send · event) (fun s => ?_) (fun j hj s => ?_) ()
  · rw [if_pos rfl]
    exact .ret ()
  · rw [if_neg (Fin.val_ne_of_ne hj)]
    exact hsend j hj

theorem shape_allGather (ctx : Context W) (input : List Byte) :
    (allGather ctx input : LinkProc W η (List (List Byte) × Context W)).Shape
      (Kind.allGather.actions ctx.rank (ctx.nextEvent "ALLGATHER").1) := by
  rw [← List.append_nil (Kind.actions _ _ _), Kind.actions, List.append_assoc]
  refine Proc.Shape.bind ?_ fun _ => Proc.Shape.bind ?_ fun outputs => .ret _
  · exact shape_sendOthers (ctx.nextEvent "ALLGATHER").2 _ fun j hj =>
      Context.shape_sendAsyncInternal _ hj _ input
  · exact shape_recvOthers (ctx.nextEvent "ALLGATHER").2 _ input _

theorem shape_gather (ctx : Context W) (input : List Byte) (root : Fin W.size) :
    (gather ctx input root : LinkProc W η (List (List Byte) × Context W)).Shape
      ((Kind.gather root).actions ctx.rank (ctx.nextEvent "GATHER").1) := by
  have hroot : (root : ℕ) = (ctx.nextEvent "GATHER").2.rank ↔ ctx.rank = root := by
    rw [Fin.val_inj, eq_comm]
    rfl
  rw [← List.append_nil (Kind.actions _ _ _), gather, Kind.actions]
  dsimp only
  rw [if_congr hroot rfl rfl]
  split
  · exact (shape_recvOthers (ctx.nextEvent "GATHER").2 _ input _).bind fun res => .ret _
  · next hne =>
    exact ((ctx.nextEvent "GATHER").2.shape_sendAsyncInternal (Ne.symm hne) _ input).bind
      fun _ => .ret _

theorem shape_scatter (ctx : Context W) (inputs : List (List Byte)) (root : Fin W.size)
    (h : ctx.rank = root → inputs.length = W.size) :
    (scatter ctx inputs root : LinkProc W η (List Byte × Context W)).Shape
      ((Kind.scatter root).actions ctx.rank (ctx.nextEvent "SCATTER").1) := by
  have hroot : (root : ℕ) = (ctx.nextEvent "SCATTER").2.rank ↔ ctx.rank = root := by
    rw [Fin.val_inj, eq_comm]
    rfl
  rw [← List.append_nil (Kind.actions _ _ _), scatter, Kind.actions]
  dsimp only
  rw [if_congr hroot rfl rfl]
  split
  · next heq =>
    have hlen := h heq
    have hget (j : Fin W.size) : vecGet inputs j = .ok (inputs.getD j []) :=
      vecGet_getD (j.2.trans_eq hlen.symm) []
    rw [enforce_of_pos hlen, hget root]
    refine Proc.Shape.bind (p := forLoop _ _ _) ?_ fun _ => .ret _
    refine shape_sendOthers (ctx.nextEvent "SCATTER").2 _ fun j hj => ?_
    rw [hget j]
    exact Context.shape_sendAsyncInternal _ hj _ _
  · next hne =>
    exact ((ctx.nextEvent "SCATTER").2.shape_recvInternal (Ne.symm hne) _).bind fun _ => .ret _

namespace Collective

/-- **The messages of a call.** -/
theorem shape_run (ctx : Context W) (a : Collective W) (h : a.HasInputs ctx.rank) :
    (a.run ctx : LinkProc W η (Context W)).Shape
      (a.kind.actions ctx.rank (ctx.nextEvent a.kind.kType).1) := by
  rw [← List.append_nil (Kind.actions _ _ _)]
  cases a with
  | broadcast input root =>
    exact (Broadcast.shape_broadcast ctx root input).bind fun r => .ret _
  | barrier =>
    rw [List.append_nil]
    exact Barrier.shape_barrier ctx
  | allGather input => exact (shape_allGather ctx input).bind fun r => .ret _
  | gather input root => exact (shape_gather ctx input root).bind fun r => .ret _
  | scatter inputs root => exact (shape_scatter ctx inputs root h).bind fun r => .ret _

theorem meets_run (ctx : Context W) (a : Collective W) (i : Fin W.size) :
    (a.run ctx : LinkProc W η (Context W)).Meets i (fun _ => True) (· = ctx.nextId.2) := by
  have hcall {α : Type} {p : LinkProc W η (α × Context W)}
      (h : p.Meets i (fun _ => True) (·.2 = ctx.nextId.2)) :
      (p >>= fun r => pure r.2).Meets i (fun _ => True) (· = ctx.nextId.2) :=
    h.bind fun r (hr : r.2 = ctx.nextId.2) => hr
  cases a with
  | broadcast input root => exact hcall ((Proc.meets_true i _).bind fun _ _ => rfl)
  | barrier => exact Barrier.meets_barrier ctx i
  | allGather input =>
    exact hcall ((Proc.meets_true i _).bind fun _ _ => (Proc.meets_true i _).bind fun _ _ => rfl)
  | gather input root =>
    refine hcall ?_
    rw [Link.gather]
    dsimp only
    split
    · exact (Proc.meets_true i _).bind fun _ _ => rfl
    · exact (Proc.meets_true i _).bind fun _ _ => rfl
  | scatter inputs root =>
    refine hcall ?_
    rw [Link.scatter]
    dsimp only
    split
    · exact (Proc.meets_true i _).bind fun _ _ => (Proc.meets_true i _).bind fun _ _ =>
        (Proc.meets_true i _).bind fun _ _ => rfl
    · exact (Proc.meets_true i _).bind fun _ _ => rfl

end Collective

/-! ### Who sends to whom -/

namespace Kind

variable {i j : Fin W.size} {event : Str}

theorem send_mem_broadcast {root : Fin W.size} {key : Str} :
    (.send j key : Action (Fin W.size) Str η) ∈ (broadcast root).actions i event ↔
      ∃ t, (t, (.send j key : Action (Fin W.size) Str η)) ∈ Broadcast.plan root event i := by
  simp [actions]

theorem recv_mem_broadcast {root : Fin W.size} {key : Str} :
    (.recv j key : Action (Fin W.size) Str η) ∈ (broadcast root).actions i event ↔
      ∃ t, (t, (.recv j key : Action (Fin W.size) Str η)) ∈ Broadcast.plan root event i := by
  simp [actions]

theorem mem_barrier {a : Action (Fin W.size) Str η} :
    a ∈ barrier.actions i event ↔ ∃ r < Barrier.rounds W,
      a = .send (W.next i (2 ^ r)) event ∨ a = .recv (W.prev i (2 ^ r)) event := by
  simp [actions, Barrier.actions, Barrier.roundActions]

theorem eq_of_mem_actions {k : Kind W} {a : Action (Fin W.size) Str η} (h : a ∈ k.actions i event) :
    ∃ j, j ≠ i ∧ (a = .send j event ∨ a = .recv j event) := by
  cases k with
  | broadcast root =>
    obtain ⟨⟨t, a⟩, hmem, rfl⟩ := List.mem_map.1 h
    cases a with
    | mark e => exact absurd hmem Broadcast.mark_notMem_plan
    | send dst key =>
      obtain ⟨rfl, p, hdvd, hlt, -, rfl⟩ := Broadcast.send_mem_plan.1 hmem
      exact ⟨_, (World.next_ne (Nat.two_pow_pos p) (by omega)).symm, .inl rfl⟩
    | recv src key =>
      obtain ⟨rfl, hne, -, rfl⟩ := Broadcast.recv_mem_plan.1 hmem
      have hle := (Broadcast.two_pow_succ_dvd_sub hne).2.trans_lt (World.vrank_lt root i)
      exact ⟨_, (World.prev_ne (Nat.two_pow_pos _) hle).symm, .inr rfl⟩
  | barrier =>
    obtain ⟨r, hr, h⟩ := mem_barrier.1 h
    have hlt := Barrier.two_pow_lt_size hr
    rcases h with rfl | rfl
    · exact ⟨_, (World.next_ne (Nat.two_pow_pos r) hlt).symm, .inl rfl⟩
    · exact ⟨_, (World.prev_ne (Nat.two_pow_pos r) hlt).symm, .inr rfl⟩
  | allGather =>
    simp only [actions, List.mem_append, List.mem_map, World.mem_others] at h
    rcases h with ⟨j, hj, rfl⟩ | ⟨j, hj, rfl⟩
    · exact ⟨j, hj, .inl rfl⟩
    · exact ⟨j, hj, .inr rfl⟩
  | gather root =>
    rw [actions] at h
    split at h
    · simp only [List.mem_map, World.mem_others] at h
      obtain ⟨j, hj, rfl⟩ := h
      exact ⟨j, hj, .inr rfl⟩
    · next hne => exact ⟨root, Ne.symm hne, .inl (List.mem_singleton.1 h)⟩
  | scatter root =>
    rw [actions] at h
    split at h
    · simp only [List.mem_map, World.mem_others] at h
      obtain ⟨j, hj, rfl⟩ := h
      exact ⟨j, hj, .inl rfl⟩
    · next hne => exact ⟨root, Ne.symm hne, .inr (List.mem_singleton.1 h)⟩

theorem nodup_map_others (i : Fin W.size) {act : Fin W.size → Action (Fin W.size) Str η}
    (hinj : Function.Injective act) : ((World.others i).map act).Nodup :=
  (World.nodup_others i).map hinj

theorem nodup_barrier (i : Fin W.size) (event : Str) :
    (barrier.actions i event : List (Action (Fin W.size) Str η)).Nodup := by
  rw [actions, Barrier.actions, List.nodup_flatMap]
  refine ⟨fun r _ => by simp [Barrier.roundActions], ?_⟩
  refine List.nodup_range.imp_of_mem fun {r r'} hr hr' hne => ?_
  have hlt := Barrier.two_pow_lt_size (List.mem_range.1 hr)
  have hlt' := Barrier.two_pow_lt_size (List.mem_range.1 hr')
  have hinj (h : 2 ^ r = 2 ^ r') : False := hne (Nat.pow_right_injective le_rfl h)
  intro a ha ha'
  simp only [Barrier.roundActions, List.mem_cons, List.not_mem_nil, or_false] at ha ha'
  rcases ha with rfl | rfl
  · rcases ha' with heq | heq
    · exact hinj (World.next_inj hlt hlt' (Action.send.inj heq).1)
    · cases heq
  · rcases ha' with heq | heq
    · cases heq
    · exact hinj (World.prev_inj hlt hlt' (Action.recv.inj heq).1)

/-- **No action is repeated.** -/
theorem nodup_actions (i : Fin W.size) (event : Str) (k : Kind W) :
    (k.actions i event : List (Action (Fin W.size) Str η)).Nodup := by
  have hsend : Function.Injective fun j : Fin W.size => (.send j event : Action _ _ η) :=
    fun _ _ h => (Action.send.inj h).1
  have hrecv : Function.Injective fun j : Fin W.size => (.recv j event : Action _ _ η) :=
    fun _ _ h => (Action.recv.inj h).1
  cases k with
  | broadcast root => exact (Broadcast.timetable_plan root event).nodup i
  | barrier => exact nodup_barrier i event
  | allGather =>
    refine (nodup_map_others i hsend).append (nodup_map_others i hrecv) ?_
    simp [List.disjoint_left]
  | gather root =>
    rw [actions]
    split
    · exact nodup_map_others i hrecv
    · exact List.nodup_singleton _
  | scatter root =>
    rw [actions]
    split
    · exact nodup_map_others i hsend
    · exact List.nodup_singleton _

/-- **What is sent is received**, and the other way round. -/
theorem send_mem_actions_iff {k : Kind W} :
    (.send j event : Action (Fin W.size) Str η) ∈ k.actions i event ↔
      (.recv i event : Action (Fin W.size) Str η) ∈ k.actions j event := by
  cases k with
  | broadcast root =>
    rw [send_mem_broadcast, recv_mem_broadcast]
    constructor
    · rintro ⟨t, h⟩
      exact Broadcast.plan_sent_received h
    · rintro ⟨t, h⟩
      obtain ⟨t', -, h'⟩ := Broadcast.plan_recv_sent h
      exact ⟨t', h'⟩
  | barrier =>
    simp only [mem_barrier, Action.send.injEq, Action.recv.injEq, reduceCtorEq, or_false, false_or,
      and_true]
    refine exists_congr fun r => and_congr_right fun hr => ?_
    have hlt := Barrier.two_pow_lt_size hr
    constructor
    · rintro rfl
      exact (World.prev_next hlt.le).symm
    · rintro rfl
      exact (World.next_prev hlt.le).symm
  | allGather => simp [actions, World.mem_others, ne_comm]
  | gather root =>
    simp only [actions]
    by_cases hi : i = root <;> by_cases hj : j = root <;>
      simp [hi, hj, World.mem_others]
  | scatter root =>
    simp only [actions]
    by_cases hi : i = root <;> by_cases hj : j = root <;>
      simp [hi, hj, World.mem_others]

end Kind

end Yacl.Link
