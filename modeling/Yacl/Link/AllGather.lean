import Yacl.Link.Collectives

/-!
# All inputs at all parties

`AllGather` under every scheduling: the calls of all parties return the inputs of all parties, in
the order of their ranks (`allGather_correct`). A party sends to all others before it receives from
the first of them, so nobody waits in vain (`timetable_plan`).
-/

open Bytes Loop Network

namespace Yacl.Link.AllGather

variable {W : World} (event : Str) (i : Fin W.size)

/-- The messages of party `i`, with the times of a schedule. -/
def plan : List (ℕ × Action (Fin W.size) Str Empty) :=
  (World.others i).map (fun j => (j.val, Action.send j event)) ++
    (World.others i).map fun j => (W.size + j.val, .recv j event)

theorem map_plan : (plan event i).map Prod.snd = Kind.allGather.actions i event := by
  rw [plan, List.map_append, List.map_map, List.map_map]
  rfl

variable {event i} in
theorem mem_plan {x : ℕ × Action (Fin W.size) Str Empty} :
    x ∈ plan event i ↔
      ∃ j ≠ i, (j.val, .send j event) = x ∨ (W.size + j.val, .recv j event) = x := by
  simp only [plan, List.mem_append, List.mem_map, World.mem_others, and_or_left, exists_or]

theorem timetable_plan : Timetable (plan event : Fin W.size → _) := by
  refine ⟨fun i => List.pairwise_append.2 ⟨?_, ?_, ?_⟩, fun i => ?_⟩
  · exact List.pairwise_map.2 ((List.pairwise_lt_finRange _).filter _)
  · refine List.pairwise_map.2 (((List.pairwise_lt_finRange _).filter _).imp fun {j j'} h => ?_)
    exact Nat.add_lt_add_left h _
  · simp only [List.mem_map]
    rintro _ ⟨j, -, rfl⟩ _ ⟨j', -, rfl⟩
    exact Nat.lt_add_right _ j.2
  · rw [map_plan]
    exact Kind.nodup_actions i event _

variable (C : Contexts W) (input : Fin W.size → List Byte)

/-- The call of party `i`. -/
def call : LinkProc W Empty (List (List Byte) × Context W) := allGather (C.ctx i) (input i)

theorem meets_call :
    (call i C input).Meets i (fun e => e.msg = input e.slot.src) (·.1 = List.ofFn input) := by
  have hrank : ((C.ctx i).nextEvent "ALLGATHER").2.rank = i := C.rank_eq i
  rw [call, allGather]
  dsimp only
  refine (Proc.meets_forLoop (fun _ _ => True) (fun k hk _ _ => ?_) trivial).bind fun _ _ =>
    (Proc.meets_forLoop (fun k outputs => outputs = .ofFn fun j => if j < k then input j else [])
      (fun k hk outputs h => ?_) (by simp)).bind fun outputs h => h.trans (by simp)
  · split
    · trivial
    · rw [Context.sendAsyncInternal]
      split
      · exact ⟨rfl, trivial⟩
      · trivial
  · -- entry `k` is the input of party `k`
    have hset : outputs.set k (input ⟨k, hk⟩) =
        .ofFn fun j => if j < k + 1 then input j else [] := by
      refine List.ext_getElem (by simp [h]) fun j _ _ => ?_
      simp only [h, List.getElem_set, List.getElem_ofFn]
      grind
    split
    · next hki =>
      obtain rfl : ⟨k, hk⟩ = i := Fin.ext (hki.trans (congrArg Fin.val hrank))
      exact hset
    · next hki =>
      rw [Context.recvInternal,
        Context.channel_eq _ (show _ ≠ (⟨k, hk⟩ : Fin W.size) from fun h => hki (h ▸ rfl))]
      intro m hm
      obtain rfl : m = input ⟨k, hk⟩ := hm
      exact hset

/-- **AllGather.** Runs are bounded and go on until no step is possible. Then all parties have
returned the inputs of all, and every message that was sent has been received. -/
theorem allGather_correct :
    (∃ bound, ∀ tr c, Run (.start (call · C input)) tr c →
      tr.length ≤ bound ∧ ∃ tr' c', Run (.start (call · C input)) (tr ++ tr') c' ∧ Stuck c') ∧
    ∀ tr c, Run (.start (call · C input)) tr c → Stuck c →
      (∀ i, ∃ ctx, c.procs i = .ret (List.ofFn input, ctx)) ∧
      (∀ e, Label.drop e ∉ tr) ∧ c.transit = [] ∧ ∀ s, c.mailbox s = none := by
  have hshape (i : Fin W.size) :
      (call i C input).Shape ((plan (C.event "ALLGATHER") i).map Prod.snd) := by
    have hctx := shape_allGather (η := Empty) (C.ctx i) (input i)
    rwa [C.nextEvent_eq, C.rank_eq, ← map_plan] at hctx
  have hplan := timetable_plan (W := W) (C.event "ALLGATHER")
  refine ⟨⟨_, fun tr c h => ⟨h.length_le hshape, h.exists_stuck hshape⟩⟩, fun tr c h hstuck => ?_⟩
  obtain ⟨-, hret, htransit, hbox⟩ := h.completed hplan hshape
    (fun i t src key hr => by
      obtain ⟨j, hne, hj | hj⟩ := mem_plan.1 hr
      · cases hj
      · cases hj
        exact ⟨i, Nat.lt_add_right _ i.2, mem_plan.2 ⟨i, hne.symm, .inl rfl⟩⟩)
    (fun i t dst key hs => by
      obtain ⟨j, hne, hj | hj⟩ := mem_plan.1 hs
      · cases hj
        exact ⟨_, mem_plan.2 ⟨i, hne.symm, .inr rfl⟩⟩
      · cases hj) hstuck
  refine ⟨fun i => ?_, h.drop_notMem hshape hplan.nodup, htransit, hbox⟩
  obtain ⟨⟨output, ctx⟩, hi⟩ := hret i
  have hvalue := (h.meets fun i => meets_call i C input).1 i
  rw [hi] at hvalue
  obtain rfl : output = List.ofFn input := hvalue
  exact ⟨ctx, hi⟩

end Yacl.Link.AllGather
