import Yacl.Link.Context

/-!
# Barrier

The algorithm `Barrier` (`yacl/link/algorithm/barrier.cc`), called any number of times on a context.
In round `r` a party sends to the one `2 ^ r` places further on the ring and waits for the one
`2 ^ r` places back. All rounds of a call have the same key, but they are between different parties,
as the distances are below the number of parties.

**A call ends after all parties have entered it**: who has finished `r` rounds knows of the `2 ^ r`
parties up to itself that they have entered (`enter_mem_performed`), and after the last round these
are all. **A call that all parties have entered ends**: the rounds are a timetable for all parties
(`timetable_plan`), so that no one waits for a message that is not sent.

Other collective algorithms between two calls take keys of the context as well; `others k` is their
number before call `k`. A party makes `calls i` calls, at times that the interleaving decides.
-/

open Bytes Network

namespace Yacl.Link

namespace Barrier

variable {W : World} {η : Type}

/-- The loop of `Barrier`. -/
def barrierLoop (ctx : Context W) (event : Str) : ℕ → ℕ → LinkProc W η Unit
  | 0, _ => .throw .nonTermination
  | fuel + 1, offset =>
    if offset < W.size then do
      let recvRank := ctx.prevRank offset
      let sendRank := ctx.nextRank offset
      ctx.sendAsyncInternal sendRank event []
      let _ ← ctx.recvInternal recvRank event
      barrierLoop ctx event fuel ((offset <<< 1) % 2 ^ 64)
    else pure ()

/-- `Barrier`. -/
def barrier (ctx : Context W) : LinkProc W η (Context W) := do
  let (event, ctx) := ctx.nextEvent "BARRIER"
  barrierLoop ctx event 65 1
  pure ctx

/-- What the trace shows of a call. -/
inductive Mark where
  | enter (k : ℕ)
  | leave (k : ℕ)
deriving DecidableEq

/-- A number of calls from call `k` on. -/
def barrierCalls (others : ℕ → ℕ) : ℕ → ℕ → Context W → LinkProc W Mark (Context W)
  | 0, _, ctx => pure ctx
  | calls + 1, k, ctx => do
    Proc.markEvent (.enter k)
    let ctx ← barrier { ctx with counter := ctx.counter + others k }
    Proc.markEvent (.leave k)
    barrierCalls others calls (k + 1) ctx

/-! ### The actions of a call -/

/-- The number of rounds. -/
def rounds (W : World) : ℕ := Nat.clog 2 W.size

/-- The actions of round `r`. -/
def roundActions (i : Fin W.size) (event : Str) (r : ℕ) : List (Action (Fin W.size) Str η) :=
  [.send (W.next i (2 ^ r)) event, .recv (W.prev i (2 ^ r)) event]

/-- The actions of a call. -/
def actions (i : Fin W.size) (event : Str) : List (Action (Fin W.size) Str η) :=
  (List.range (rounds W)).flatMap (roundActions i event)

theorem rounds_le (W : World) : rounds W ≤ 31 := Nat.clog_le_of_le_pow W.lt.le

theorem two_pow_lt_size {r : ℕ} (h : r < rounds W) : 2 ^ r < W.size := Nat.pow_lt_of_lt_clog h

theorem shape_barrierLoop (ctx : Context W) (event : Str) {m r fuel offset : ℕ}
    (hoffset : offset = 2 ^ r) (hr : r + m = rounds W) (hfuel : m < fuel) :
    (barrierLoop ctx event fuel offset : LinkProc W η Unit).Shape
      ((List.range' r m).flatMap (roundActions ctx.rank event)) := by
  subst hoffset
  induction m generalizing r fuel with
  | zero =>
    obtain ⟨fuel, rfl⟩ := Nat.exists_eq_succ_of_ne_zero (Nat.ne_of_gt hfuel)
    have hge : W.size ≤ 2 ^ r := by
      rw [show r = rounds W from hr]
      exact Nat.le_pow_clog Nat.one_lt_two _
    rw [barrierLoop, if_neg (Nat.not_lt.2 hge)]
    exact .ret ()
  | succ m ih =>
    obtain ⟨fuel, rfl⟩ := Nat.exists_eq_succ_of_ne_zero (Nat.ne_of_gt (Nat.zero_lt_of_lt hfuel))
    have hlt : 2 ^ r < W.size := two_pow_lt_size (by omega)
    have hpos := Nat.two_pow_pos r
    have hshift : (2 ^ r <<< 1) % 2 ^ 64 = 2 ^ (r + 1) := by
      have := W.lt
      rw [Nat.shiftLeft_eq, pow_one, ← pow_succ]
      exact Nat.mod_eq_of_lt (by rw [pow_succ]; omega)
    rw [barrierLoop, if_pos hlt]
    dsimp only
    rw [Context.sendAsyncInternal_nextRank ctx hpos hlt, Context.recvInternal_prevRank ctx hpos hlt,
      hshift, List.range'_succ, List.flatMap_cons]
    exact .send (.recv fun _ => ih (by omega) (by omega))

/-- **The actions of a call.** -/
theorem shape_barrier (ctx : Context W) : (barrier ctx : LinkProc W η (Context W)).Shape
    (actions ctx.rank (ctx.nextEvent "BARRIER").1) := by
  have hrounds := rounds_le W
  rw [← List.append_nil (actions _ _), barrier, actions, List.range_eq_range']
  refine Proc.Shape.bind ?_ fun _ => .ret _
  exact shape_barrierLoop (ctx.nextEvent "BARRIER").2 _ (pow_zero 2).symm (Nat.zero_add _)
    (by omega)

theorem meets_barrier (ctx : Context W) (i : Fin W.size) :
    (barrier ctx : LinkProc W η (Context W)).Meets i (fun _ => True) (· = ctx.nextId.2) :=
  (Proc.meets_true i _).bind fun _ _ => rfl

/-! ### The timetable of all calls -/

section Plan

variable (C : Contexts W) (others : ℕ → ℕ)

/-- The value of `counter_` before call `k` and the other algorithms before it. -/
def counterBefore (k : ℕ) : ℕ :=
  (C.ctx ⟨0, W.pos⟩).counter + ∑ j ∈ Finset.range k, (others j + 1)

/-- The context of a party when it has a given value of `counter_`. -/
def ctxAt (i : Fin W.size) (counter : ℕ) : Context W := { C.ctx i with counter := counter }

/-- The key of call `k`. -/
def eventAt (k : ℕ) : Str :=
  ((ctxAt C ⟨0, W.pos⟩ (counterBefore C others k + others k)).nextEvent "BARRIER").1

/-- The time of step `x` of call `k`. -/
def time (W : World) (k x : ℕ) : ℕ := k * (2 * rounds W + 2) + x

/-- The actions of round `r` of call `k`. -/
def roundPlan (i : Fin W.size) (k r : ℕ) : List (ℕ × Action (Fin W.size) Str Mark) :=
  [(time W k (2 * r + 1), .send (W.next i (2 ^ r)) (eventAt C others k)),
    (time W k (2 * r + 2), .recv (W.prev i (2 ^ r)) (eventAt C others k))]

/-- The actions of call `k`. -/
def callPlan (i : Fin W.size) (k : ℕ) : List (ℕ × Action (Fin W.size) Str Mark) :=
  (time W k 0, .mark (.enter k)) ::
    ((List.range (rounds W)).flatMap (roundPlan C others i k) ++
      [(time W k (2 * rounds W + 1), .mark (.leave k))])

/-- The actions of a party that makes `calls i` calls. -/
def plan (calls : Fin W.size → ℕ) (i : Fin W.size) : List (ℕ × Action (Fin W.size) Str Mark) :=
  (List.range (calls i)).flatMap (callPlan C others i)

variable {C others} {calls : Fin W.size → ℕ} {i : Fin W.size}
variable {k : ℕ} {x : ℕ × Action (Fin W.size) Str Mark}

theorem mem_callPlan :
    x ∈ callPlan C others i k ↔ x = (time W k 0, .mark (.enter k)) ∨
      (∃ r < rounds W, x ∈ roundPlan C others i k r) ∨
      x = (time W k (2 * rounds W + 1), .mark (.leave k)) := by
  simp only [callPlan, List.mem_cons, List.mem_append, List.mem_flatMap, List.mem_range,
    List.not_mem_nil, or_false]

theorem mem_plan : x ∈ plan C others calls i ↔ ∃ k < calls i, x ∈ callPlan C others i k := by
  simp only [plan, List.mem_flatMap, List.mem_range]

variable {t : ℕ}

theorem enter_mem_plan :
    (t, .mark (.enter k)) ∈ plan C others calls i ↔ k < calls i ∧ t = time W k 0 := by
  simp only [mem_plan, mem_callPlan, roundPlan, List.mem_cons, Prod.mk.injEq, Action.mark.injEq,
    Mark.enter.injEq, reduceCtorEq, and_false, List.not_mem_nil, or_false, exists_false]
  constructor
  · rintro ⟨k', hk, rfl, rfl⟩
    exact ⟨hk, rfl⟩
  · rintro ⟨hk, rfl⟩
    exact ⟨k, hk, rfl, rfl⟩

theorem leave_mem_plan :
    (t, .mark (.leave k)) ∈ plan C others calls i ↔
      k < calls i ∧ t = time W k (2 * rounds W + 1) := by
  simp only [mem_plan, mem_callPlan, roundPlan, List.mem_cons, Prod.mk.injEq, Action.mark.injEq,
    Mark.leave.injEq, reduceCtorEq, and_false, List.not_mem_nil, or_false, false_or, exists_false]
  constructor
  · rintro ⟨k', hk, rfl, rfl⟩
    exact ⟨hk, rfl⟩
  · rintro ⟨hk, rfl⟩
    exact ⟨k, hk, rfl, rfl⟩

theorem send_mem_plan {dst : Fin W.size} {key : Str} :
    (t, .send dst key) ∈ plan C others calls i ↔ ∃ k < calls i, ∃ r < rounds W,
      t = time W k (2 * r + 1) ∧ dst = W.next i (2 ^ r) ∧ key = eventAt C others k := by
  simp only [mem_plan, mem_callPlan, roundPlan, List.mem_cons, Prod.mk.injEq, Action.send.injEq,
    reduceCtorEq, and_false, List.not_mem_nil, or_false, false_or]

theorem recv_mem_plan {src : Fin W.size} {key : Str} :
    (t, .recv src key) ∈ plan C others calls i ↔ ∃ k < calls i, ∃ r < rounds W,
      t = time W k (2 * r + 2) ∧ src = W.prev i (2 ^ r) ∧ key = eventAt C others k := by
  simp only [mem_plan, mem_callPlan, roundPlan, List.mem_cons, Prod.mk.injEq, Action.recv.injEq,
    reduceCtorEq, and_false, List.not_mem_nil, or_false, false_or]

theorem length_plan : (plan C others calls i).length = calls i * (2 * rounds W + 2) := by
  have hcall (k : ℕ) : (callPlan C others i k).length = 2 * rounds W + 2 := by
    simp [callPlan, roundPlan, List.length_flatMap, Nat.mul_comm]
  simp [plan, List.length_flatMap, hcall]

theorem time_lt_time {k' x x' : ℕ} (hk : k < k') (hx : x ≤ 2 * rounds W + 1) :
    time W k x < time W k' x' := by
  have hmul : (k + 1) * (2 * rounds W + 2) ≤ k' * (2 * rounds W + 2) := Nat.mul_le_mul_right _ hk
  rw [Nat.add_mul, Nat.one_mul] at hmul
  rw [time, time]
  omega

theorem eventAt_injective : Function.Injective (eventAt C others) := by
  have hmono : StrictMono fun k => counterBefore C others k + others k := by
    refine strictMono_nat_of_lt_succ fun k => ?_
    rw [counterBefore, counterBefore, Finset.sum_range_succ]
    omega
  intro k k' h
  exact hmono.injective (Context.counter_eq_of_nextEvent (ctxAt C ⟨0, W.pos⟩ _)
    (ctxAt C ⟨0, W.pos⟩ _) rfl h)

theorem mem_roundPlan {r : ℕ} (h : x ∈ roundPlan C others i k r) :
    x.1 = time W k (2 * r + 1) ∨ x.1 = time W k (2 * r + 2) := by
  simp only [roundPlan, List.mem_cons, List.not_mem_nil, or_false] at h
  exact h.imp (congrArg Prod.fst) (congrArg Prod.fst)

theorem exists_time_of_mem_callPlan (h : x ∈ callPlan C others i k) :
    ∃ y ≤ 2 * rounds W + 1, x.1 = time W k y := by
  rcases mem_callPlan.1 h with rfl | ⟨r, hr, hx⟩ | rfl
  · exact ⟨0, Nat.zero_le _, rfl⟩
  · rcases mem_roundPlan hx with hx | hx
    · exact ⟨2 * r + 1, by omega, hx⟩
    · exact ⟨2 * r + 2, by omega, hx⟩
  · exact ⟨2 * rounds W + 1, le_rfl, rfl⟩

theorem sorted_callPlan (k : ℕ) : (callPlan C others i k).Pairwise fun x y => x.1 < y.1 := by
  have hround {r : ℕ} {x : ℕ × Action (Fin W.size) Str Mark}
      (h : x ∈ roundPlan C others i k r) :
      time W k (2 * r) < x.1 ∧ x.1 ≤ time W k (2 * r + 2) := by
    have := mem_roundPlan h
    simp only [time] at this ⊢
    omega
  rw [callPlan, List.pairwise_cons, List.pairwise_append, List.pairwise_flatMap]
  refine ⟨fun x hx => ?_, ⟨fun r _ => ?_, ?_⟩, List.pairwise_singleton _ _, fun x hx y hy => ?_⟩
  · rcases List.mem_append.1 hx with hx | hx
    · obtain ⟨r, -, hx⟩ := List.mem_flatMap.1 hx
      have := hround hx
      simp only [time] at this ⊢
      omega
    · rw [List.mem_singleton.1 hx]
      exact Nat.lt_add_of_pos_right (Nat.succ_pos _)
  · simp [roundPlan, time]
  · refine List.pairwise_lt_range.imp fun {r r'} hr x hx y hy => ?_
    have := hround hx
    have := hround hy
    simp only [time] at *
    omega
  · obtain ⟨r, hr, hx⟩ := List.mem_flatMap.1 hx
    rw [List.mem_range] at hr
    rw [List.mem_singleton.1 hy]
    have := hround hx
    simp only [time] at *
    omega

/-- **The rounds are a timetable.** -/
theorem timetable_plan : Timetable (plan C others calls) := by
  refine .of_unique (fun i => ?_) (fun i t t' a h h' => ?_)
  · rw [plan, List.pairwise_flatMap]
    refine ⟨fun k _ => sorted_callPlan k, ?_⟩
    refine List.pairwise_lt_range.imp fun {k k'} hk x hx y hy => ?_
    obtain ⟨u, hu, hxu⟩ := exists_time_of_mem_callPlan hx
    obtain ⟨v, -, hyv⟩ := exists_time_of_mem_callPlan hy
    rw [hxu, hyv]
    exact time_lt_time hk hu
  · cases a with
    | mark e =>
      cases e with
      | enter k => rw [(enter_mem_plan.1 h).2, (enter_mem_plan.1 h').2]
      | leave k => rw [(leave_mem_plan.1 h).2, (leave_mem_plan.1 h').2]
    | send dst key =>
      obtain ⟨k, -, r, hr, rfl, rfl, rfl⟩ := send_mem_plan.1 h
      obtain ⟨k', -, r', hr', rfl, hdst, hkey⟩ := send_mem_plan.1 h'
      have hpow := World.next_inj (two_pow_lt_size hr) (two_pow_lt_size hr') hdst
      rw [eventAt_injective hkey, Nat.pow_right_injective le_rfl hpow]
    | recv src key =>
      obtain ⟨k, -, r, hr, rfl, rfl, rfl⟩ := recv_mem_plan.1 h
      obtain ⟨k', -, r', hr', rfl, hsrc, hkey⟩ := recv_mem_plan.1 h'
      have hpow := World.prev_inj (two_pow_lt_size hr) (two_pow_lt_size hr') hsrc
      rw [eventAt_injective hkey, Nat.pow_right_injective le_rfl hpow]

/-! ### The program -/

theorem map_callPlan (i : Fin W.size) (k : ℕ) : (callPlan C others i k).map Prod.snd =
    .mark (.enter k) :: (actions i (eventAt C others k) ++ [.mark (.leave k)]) := by
  rw [callPlan, List.map_cons, List.map_append, List.map_flatMap]
  rfl

theorem rank_ctxAt (i : Fin W.size) (counter : ℕ) : (ctxAt C i counter).rank = i := C.rank_eq i

theorem nextEvent_ctxAt (C : Contexts W) (others : ℕ → ℕ) (i : Fin W.size) (k : ℕ) :
    (ctxAt C i (counterBefore C others k + others k)).nextEvent "BARRIER" =
      (eventAt C others k, ctxAt C i (counterBefore C others (k + 1))) := by
  simp only [eventAt, ctxAt, Context.nextEvent, Context.nextId, C.id_eq i ⟨0, W.pos⟩,
    counterBefore, Finset.sum_range_succ, Nat.add_assoc]

/-- **The program follows the timetable.** -/
theorem shape_barrierCalls (C : Contexts W) (others : ℕ → ℕ) (i : Fin W.size) (m k : ℕ) :
    (barrierCalls others m k (ctxAt C i (counterBefore C others k))).Shape
      (((List.range' k m).flatMap (callPlan C others i)).map Prod.snd) := by
  induction m generalizing k with
  | zero => exact .ret _
  | succ m ih =>
    have hcall := shape_barrier (ctxAt C i (counterBefore C others k + others k)) (η := Mark)
    have hafter := meets_barrier (ctxAt C i (counterBefore C others k + others k)) i (η := Mark)
    have hnext : (ctxAt C i (counterBefore C others k + others k)).nextId.2 =
        ctxAt C i (counterBefore C others (k + 1)) :=
      congrArg Prod.snd (nextEvent_ctxAt C others i k)
    rw [nextEvent_ctxAt, rank_ctxAt] at hcall
    rw [List.range'_succ, List.flatMap_cons, List.map_append, map_callPlan, List.cons_append,
      List.append_assoc]
    refine .mark (hcall.bind_of_meets hafter fun ctx hctx => ?_)
    rw [hctx, hnext]
    exact .mark (ih (k + 1))

/-! ### All interleavings -/

variable {tr : List (Label (Fin W.size) Str (List Byte) Mark)}
  {c : Config (Fin W.size) Str (List Byte) Mark Exception (Context W)}

/-- The parties before their first call. -/
def start (C : Contexts W) (others : ℕ → ℕ) (calls : Fin W.size → ℕ) :
    Config (Fin W.size) Str (List Byte) Mark Exception (Context W) :=
  .start fun i => barrierCalls others (calls i) 0 (C.ctx i)

theorem shape_start (i : Fin W.size) :
    (barrierCalls others (calls i) 0 (C.ctx i)).Shape
      ((plan C others calls i).map Prod.snd) := by
  have hctx : ctxAt C i (counterBefore C others 0) = C.ctx i := by
    rw [counterBefore, Finset.sum_range_zero, Nat.add_zero, ← C.counter_eq i]
    rfl
  have h := shape_barrierCalls C others i (calls i) 0
  rwa [hctx, ← List.range_eq_range'] at h

/-- **Knowledge doubles.** If a party has reached round `r` of call `k`, the `2 ^ r` parties up to
it have entered the call. -/
theorem enter_mem_performed (h : Run (start C others calls) tr c) {r : ℕ} (hr : r ≤ rounds W)
    {i : Fin W.size} {a : Action (Fin W.size) Str Mark} (ha : a ∈ performed i tr)
    (hmem : (t, a) ∈ plan C others calls i) (ht : time W k (2 * r + 1) ≤ t) (hk : k < calls i)
    {d : ℕ} (hd : d < 2 ^ r) (hd' : d < W.size) : .mark (.enter k) ∈ performed (W.prev i d) tr := by
  induction r generalizing i t a d with
  | zero =>
    obtain rfl : d = 0 := by omega
    rw [World.prev_zero]
    refine h.mem_performed_of_lt timetable_plan shape_start ha hmem
      (enter_mem_plan.2 ⟨hk, rfl⟩) (lt_of_lt_of_le ?_ ht)
    exact Nat.lt_succ_self _
  | succ r ih =>
    have hlt : 2 ^ r < W.size := two_pow_lt_size (by omega)
    have hle : time W k (2 * r + 1) ≤ t := le_trans (by simp only [time]; omega) ht
    rcases Nat.lt_or_ge d (2 ^ r) with hsmall | hlarge
    · exact ih (by omega) ha hmem hle hk hsmall hd'
    · -- the message of round `r` has come from a party that knows the others
      have hrecv := h.mem_performed_of_lt timetable_plan shape_start ha hmem
        (recv_mem_plan.2 ⟨k, hk, r, by omega, rfl, rfl, rfl⟩)
        (lt_of_lt_of_le (by simp only [time]; omega) ht)
      have hsend := h.send_mem_performed shape_start timetable_plan.nodup hrecv
      obtain ⟨t', ht'⟩ := h.exists_time shape_start hsend
      obtain ⟨k', hk', r', hr', rfl, hdst, hkey⟩ := send_mem_plan.1 ht'
      obtain rfl := eventAt_injective hkey
      have hpow := World.next_inj hlt (two_pow_lt_size hr') ((World.next_prev hlt.le).trans hdst)
      obtain rfl := Nat.pow_right_injective le_rfl hpow
      have hknown := ih (by omega) hsend ht' le_rfl hk' (d := d - 2 ^ r)
        (by rw [pow_succ] at hd; omega) (by omega)
      rwa [World.prev_prev (by omega), Nat.add_sub_cancel' hlarge] at hknown

/-- **Barrier.** Runs are bounded and go on until no step is possible. No party leaves a call before
all have entered it. When no step is possible any more, all parties have left the calls that all of
them have entered. -/
theorem barrier_correct (C : Contexts W) (others : ℕ → ℕ) (calls : Fin W.size → ℕ) :
    (∀ tr c, Run (start C others calls) tr c →
      tr.length ≤ 128 * ∑ i, calls i ∧
        ∃ tr' c', Run (start C others calls) (tr ++ tr') c' ∧ Stuck c') ∧
    (∀ l₁ l₂ i k c, Run (start C others calls) (l₁ ++ .mark i (.leave k) :: l₂) c →
      ∀ j, .mark j (.enter k) ∈ l₁) ∧
    ∀ tr c k, Run (start C others calls) tr c → Stuck c → (∀ j, .mark j (.enter k) ∈ tr) →
      ∀ i, .mark i (.leave k) ∈ tr := by
  refine ⟨fun tr c h => ⟨(h.length_le shape_start).trans ?_, h.exists_stuck shape_start⟩,
    fun l₁ l₂ i k c h j => ?_, fun tr c k h hstuck henter i => ?_⟩
  · have hrounds := rounds_le W
    have hsum : ∑ i, ((plan C others calls i).map Prod.snd).length ≤ ∑ i, calls i * 64 :=
      Finset.sum_le_sum fun i _ => by
        rw [List.length_map, length_plan]
        exact Nat.mul_le_mul_left _ (by omega)
    rw [← Finset.sum_mul] at hsum
    omega
  · rw [← List.singleton_append, ← List.append_assoc] at h
    obtain ⟨c₁, h₁⟩ := h.left
    have hleave : .mark (.leave k) ∈ performed i (l₁ ++ [.mark i (.leave k)]) :=
      mark_mem_performed.2 (by simp)
    obtain ⟨t, ht⟩ := h₁.exists_time shape_start hleave
    obtain ⟨hk, rfl⟩ := leave_mem_plan.1 ht
    obtain ⟨d, hd, rfl⟩ := World.exists_prev_eq i j
    have hknown := enter_mem_performed h₁ le_rfl hleave ht le_rfl hk
      (hd.trans_le (Nat.le_pow_clog Nat.one_lt_two _)) hd
    simpa using mark_mem_performed.1 hknown
  · have hcalls (j : Fin W.size) : k < calls j := by
      obtain ⟨t, ht⟩ := h.exists_time shape_start (mark_mem_performed.2 (henter j))
      exact (enter_mem_plan.1 ht).1
    -- all messages of the calls up to this one are sent
    refine mark_mem_performed.1 (h.mem_performed timetable_plan shape_start (T := time W (k + 1) 0)
      (fun i t src key ht hrecv => ?_) hstuck (leave_mem_plan.2 ⟨hcalls i, rfl⟩)
      (time_lt_time (Nat.lt_succ_self k) le_rfl))
    obtain ⟨k', -, r, hr, rfl, rfl, rfl⟩ := recv_mem_plan.1 hrecv
    have hk' : k' ≤ k := by
      by_contra hlt
      have : time W (k + 1) 0 ≤ time W k' (2 * r + 2) :=
        Nat.add_le_add (Nat.mul_le_mul_right _ (by omega)) (Nat.zero_le _)
      omega
    refine ⟨time W k' (2 * r + 1), Nat.lt_succ_self _, send_mem_plan.2
      ⟨k', hk'.trans_lt (hcalls _), r, hr, rfl, ?_, rfl⟩⟩
    rw [World.next_prev (two_pow_lt_size hr).le]

end Plan

end Barrier

end Yacl.Link
