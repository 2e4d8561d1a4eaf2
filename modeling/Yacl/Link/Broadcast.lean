import Yacl.Link.Context

/-!
# Broadcast

The algorithm `Broadcast` (`yacl/link/algorithm/broadcast.cc`). The ranks are counted from the root
on, and the value goes down a **binomial tree**: the party of virtual rank `v` receives from
`v - 2 ^ d`, where `2 ^ d` is the largest power of two that divides `v`, and sends to `v + 2 ^ p`
for the powers below `2 ^ d`, from the largest one on. The root sends for all powers. Where
`v + 2 ^ p` is no rank, nothing is sent.

`plan` is this tree as a timetable: what goes over the distance `2 ^ p` is sent at the time
`2 * (31 - p)` and received right after it. The loop of the program performs it
(`shape_broadcast`), so that the rules of `Network` apply to every interleaving.
-/

open Bytes Network

namespace Yacl.Link

variable {W : World} {η : Type}

/-! ### Virtual ranks -/

namespace World

/-- The rank counted from the root on. -/
def vrank (W : World) (root i : Fin W.size) : ℕ := (i + W.size - root) % W.size

theorem vrank_eq (root i : Fin W.size) :
    W.vrank root i = if (root : ℕ) ≤ i then (i : ℕ) - root else i + W.size - root := by
  refine (mod_eq_ite (by omega)).trans ?_
  split <;> split <;> omega

theorem vrank_lt (root i : Fin W.size) : W.vrank root i < W.size := Nat.mod_lt _ W.pos

variable {root i : Fin W.size}

theorem vrank_eq_zero_iff : W.vrank root i = 0 ↔ i = root := by
  rw [vrank_eq]
  split <;> omega

theorem vrank_next {stride : ℕ} (h : W.vrank root i + stride < W.size) :
    W.vrank root (W.next i stride) = W.vrank root i + stride := by
  rw [vrank_eq] at h ⊢
  rw [vrank_eq, val_next (by omega)]
  split at h <;> split <;> split <;> omega

theorem vrank_prev {stride : ℕ} (h : stride ≤ W.vrank root i) :
    W.vrank root (W.prev i stride) = W.vrank root i - stride := by
  have hlt := vrank_lt root i
  rw [vrank_eq] at h hlt ⊢
  rw [vrank_eq, val_prev (by omega)]
  split at h <;> split <;> split <;> omega

end World

namespace Broadcast

/-! ### The algorithm -/

/-- `RingOffset`. -/
def ringOffset (first last size : ℕ) : ℕ :=
  Context.sizeAdd (Context.sizeSub last first) size % size

/-- `absl::bit_floor`. -/
def bitFloor (n : ℕ) : ℕ := if n = 0 then 0 else 2 ^ Nat.log2 n

/-- The loop of `Broadcast`. A `size_t` is zero after it was halved 64 times. -/
def broadcastLoop (ctx : Context W) (event : Str) (vrank : ℕ) :
    ℕ → ℕ → Bool → List Byte → LinkProc W η (List Byte)
  | 0, _, _, _ => .throw .nonTermination
  | fuel + 1, stride, received, output =>
    if stride > 0 then
      if !received then
        if vrank % stride ≠ 0 then
          broadcastLoop ctx event vrank fuel (stride >>> 1) received output
        else do
          let output ← ctx.recvInternal (ctx.prevRank stride) event
          broadcastLoop ctx event vrank fuel (stride >>> 1) true output
      else if Context.sizeAdd vrank stride < W.size then do
        ctx.sendAsyncInternal (ctx.nextRank stride) event output
        broadcastLoop ctx event vrank fuel (stride >>> 1) received output
      else broadcastLoop ctx event vrank fuel (stride >>> 1) received output
    else pure output

/-- `Broadcast`. -/
def broadcast (ctx : Context W) (input : List Byte) (root : ℕ) :
    LinkProc W η (List Byte × Context W) := do
  let (event, ctx) := ctx.nextEvent "BCAST"
  let vrank := ringOffset root ctx.rank W.size
  let output ← broadcastLoop ctx event vrank 65 (bitFloor W.size) (vrank = 0) input
  pure (output, ctx)

theorem ringOffset_eq (root i : Fin W.size) : ringOffset root i W.size = W.vrank root i := by
  have := W.lt
  have hwrap : Context.sizeAdd (Context.sizeSub i root) W.size = i + W.size - root := by
    rw [Context.sizeAdd, Context.sizeSub]
    omega
  rw [ringOffset, hwrap]
  rfl

/-! ### The tree -/

/-- What a party sends over the distances below `2 ^ q`. -/
def sendPlan (root i : Fin W.size) (event : Str) : ℕ → List (ℕ × Action (Fin W.size) Str η)
  | 0 => []
  | q + 1 =>
    if W.vrank root i + 2 ^ q < W.size then
      (2 * (31 - q), .send (W.next i (2 ^ q)) event) :: sendPlan root i event q
    else sendPlan root i event q

/-- The actions of a party. -/
def plan (root : Fin W.size) (event : Str) (i : Fin W.size) :
    List (ℕ × Action (Fin W.size) Str η) :=
  let v := W.vrank root i
  let d := padicValNat 2 v
  if v = 0 then sendPlan root i event (Nat.log2 W.size + 1)
  else (2 * (31 - d) + 1, .recv (W.prev i (2 ^ d)) event) :: sendPlan root i event d

variable {root i : Fin W.size} {event : Str} {q : ℕ}

theorem mem_sendPlan {x : ℕ × Action (Fin W.size) Str η} :
    x ∈ sendPlan root i event q ↔ ∃ p < q, W.vrank root i + 2 ^ p < W.size ∧
      x = (2 * (31 - p), .send (W.next i (2 ^ p)) event) := by
  induction q with
  | zero => simp [sendPlan]
  | succ q ih =>
    have hsplit : (∃ p < q + 1, W.vrank root i + 2 ^ p < W.size ∧
          x = (2 * (31 - p), .send (W.next i (2 ^ p)) event)) ↔
        (W.vrank root i + 2 ^ q < W.size ∧
          x = (2 * (31 - q), .send (W.next i (2 ^ q)) event)) ∨ x ∈ sendPlan root i event q := by
      rw [ih]
      constructor
      · rintro ⟨p, hp, h⟩
        rcases Nat.lt_succ_iff_lt_or_eq.1 hp with hp | rfl
        · exact .inr ⟨p, hp, h⟩
        · exact .inl h
      · rintro (h | ⟨p, hp, h⟩)
        · exact ⟨q, Nat.lt_succ_self q, h⟩
        · exact ⟨p, hp.trans (Nat.lt_succ_self q), h⟩
    rw [hsplit, sendPlan]
    split
    · next hlt => rw [List.mem_cons]; simp [hlt]
    · next hge => simp [hge]

theorem lt_of_two_pow_lt_size {p : ℕ} (h : 2 ^ p < W.size) : p < 31 :=
  (Nat.pow_lt_pow_iff_right Nat.one_lt_two).1 (h.trans W.lt)

variable {dst : Fin W.size} {key : Str} {t : ℕ}

/-- What is sent: over the distances below the one over which the party has received. -/
theorem send_mem_plan :
    (t, (.send dst key : Action (Fin W.size) Str η)) ∈ plan root event i ↔
      key = event ∧ ∃ p, 2 ^ (p + 1) ∣ W.vrank root i ∧ W.vrank root i + 2 ^ p < W.size ∧
        t = 2 * (31 - p) ∧ dst = W.next i (2 ^ p) := by
  have hlevel : ∀ p, W.vrank root i + 2 ^ p < W.size → (2 ^ (p + 1) ∣ W.vrank root i ↔
      p < if W.vrank root i = 0 then Nat.log2 W.size + 1 else padicValNat 2 (W.vrank root i)) := by
    intro p hp
    split
    · next h0 =>
      rw [h0] at hp ⊢
      have : p ≤ Nat.log2 W.size := (Nat.le_log2 W.pos.ne').2 (by omega)
      simp only [dvd_zero, true_iff]
      omega
    · next h0 => rw [padicValNat_dvd_iff_le h0, Nat.succ_le_iff]
  have hmem : (t, (.send dst key : Action (Fin W.size) Str η)) ∈ plan root event i ↔
      (t, (.send dst key : Action (Fin W.size) Str η)) ∈ sendPlan root i event
        (if W.vrank root i = 0 then Nat.log2 W.size + 1 else padicValNat 2 (W.vrank root i)) := by
    rw [plan]
    split <;> simp
  rw [hmem, mem_sendPlan]
  constructor
  · rintro ⟨p, hp, hlt, heq⟩
    simp only [Prod.mk.injEq, Action.send.injEq] at heq
    exact ⟨heq.2.2, p, (hlevel p hlt).2 hp, hlt, heq.1, heq.2.1⟩
  · rintro ⟨rfl, p, hdvd, hlt, rfl, rfl⟩
    exact ⟨p, (hlevel p hlt).1 hdvd, hlt, rfl⟩

theorem recv_mem_plan {src : Fin W.size} :
    (t, (.recv src key : Action (Fin W.size) Str η)) ∈ plan root event i ↔
      key = event ∧ W.vrank root i ≠ 0 ∧ t = 2 * (31 - padicValNat 2 (W.vrank root i)) + 1 ∧
        src = W.prev i (2 ^ padicValNat 2 (W.vrank root i)) := by
  have hnot (q : ℕ) :
      (t, (.recv src key : Action (Fin W.size) Str η)) ∉ sendPlan root i event q := by
    intro h
    obtain ⟨p, -, -, heq⟩ := mem_sendPlan.1 h
    simp at heq
  rw [plan]
  split
  · next h0 => simp [h0, hnot]
  · next h0 =>
    rw [List.mem_cons, or_iff_left (hnot _)]
    simp only [Prod.mk.injEq, Action.recv.injEq]
    tauto

theorem padicValNat_add_two_pow {v p : ℕ} (h : 2 ^ (p + 1) ∣ v) :
    padicValNat 2 (v + 2 ^ p) = p := by
  have hne : v + 2 ^ p ≠ 0 := (Nat.add_pos_right v (Nat.two_pow_pos p)).ne'
  have hdvd : 2 ^ p ∣ v + 2 ^ p :=
    Nat.dvd_add ((pow_dvd_pow 2 (Nat.le_succ p)).trans h) (Nat.dvd_refl _)
  have hnot : ¬2 ^ (p + 1) ∣ v + 2 ^ p := by
    rw [Nat.dvd_add_right h]
    exact fun hle => absurd (Nat.le_of_dvd (Nat.two_pow_pos p) hle)
      (Nat.not_le.2 (Nat.pow_lt_pow_right Nat.one_lt_two (Nat.lt_succ_self p)))
  rw [padicValNat_dvd_iff_le hne] at hdvd hnot
  omega

theorem two_pow_succ_dvd_sub {v : ℕ} (h : v ≠ 0) :
    2 ^ (padicValNat 2 v + 1) ∣ v - 2 ^ padicValNat 2 v ∧ 2 ^ padicValNat 2 v ≤ v := by
  have hdvd : 2 ^ padicValNat 2 v ∣ v := pow_padicValNat_dvd
  have hnot : ¬2 ^ (padicValNat 2 v + 1) ∣ v := pow_succ_padicValNat_not_dvd h
  refine ⟨?_, Nat.le_of_dvd (Nat.pos_of_ne_zero h) hdvd⟩
  generalize padicValNat 2 v = d at hdvd hnot
  obtain ⟨m, rfl⟩ := hdvd
  rcases Nat.even_or_odd' m with ⟨k, rfl | rfl⟩
  · exact absurd ⟨k, by rw [pow_succ, Nat.mul_assoc]⟩ hnot
  · exact ⟨k, by rw [pow_succ, Nat.mul_add, Nat.mul_one, Nat.add_sub_cancel, Nat.mul_assoc]⟩

/-- **Every message that is received is sent before.** -/
theorem plan_recv_sent {src : Fin W.size}
    (h : (t, (.recv src key : Action (Fin W.size) Str η)) ∈ plan root event i) :
    ∃ t' < t, (t', (.send i key : Action (Fin W.size) Str η)) ∈ plan root event src := by
  obtain ⟨rfl, hne, rfl, rfl⟩ := recv_mem_plan.1 h
  obtain ⟨hdvd, hle⟩ := two_pow_succ_dvd_sub hne
  have hlt := World.vrank_lt root i
  refine ⟨2 * (31 - padicValNat 2 (W.vrank root i)), Nat.lt_succ_self _, send_mem_plan.2
    ⟨rfl, padicValNat 2 (W.vrank root i), ?_, ?_, rfl, ?_⟩⟩
  · rwa [World.vrank_prev hle]
  · rw [World.vrank_prev hle]
    omega
  · rw [World.next_prev (by omega)]

/-- **Every message that is sent is received.** -/
theorem plan_sent_received
    (h : (t, (.send dst key : Action (Fin W.size) Str η)) ∈ plan root event i) :
    ∃ t', (t', (.recv i key : Action (Fin W.size) Str η)) ∈ plan root event dst := by
  obtain ⟨rfl, p, hdvd, hlt, -, rfl⟩ := send_mem_plan.1 h
  refine ⟨_, recv_mem_plan.2 ⟨rfl, ?_, rfl, ?_⟩⟩
  · rw [World.vrank_next hlt]
    omega
  · rw [World.vrank_next hlt, padicValNat_add_two_pow hdvd, World.prev_next (by omega)]

theorem sorted_sendPlan (root i : Fin W.size) (event : Str) (hq : q ≤ 31) :
    (sendPlan root i event q : List (ℕ × Action (Fin W.size) Str η)).Pairwise
      fun x y => x.1 < y.1 := by
  induction q with
  | zero => exact List.Pairwise.nil
  | succ q ih =>
    rw [sendPlan]
    split
    · refine List.Pairwise.cons (fun x hx => ?_) (ih (by omega))
      obtain ⟨p, hp, -, rfl⟩ := mem_sendPlan.1 hx
      omega
    · exact ih (by omega)

theorem padicValNat_vrank_lt (h : W.vrank root i ≠ 0) : padicValNat 2 (W.vrank root i) < 31 :=
  lt_of_two_pow_lt_size ((two_pow_succ_dvd_sub h).2.trans_lt (World.vrank_lt root i))

theorem log2_size_lt : Nat.log2 W.size < 31 :=
  (Nat.log2_lt W.pos.ne').2 W.lt

theorem recv_lt_send (h0 : W.vrank root i ≠ 0)
    (h : (t, (.send dst key : Action (Fin W.size) Str η)) ∈ plan root event i) :
    2 * (31 - padicValNat 2 (W.vrank root i)) + 1 < t := by
  obtain ⟨-, p, hdvd, -, rfl, -⟩ := send_mem_plan.1 h
  have hp := (padicValNat_dvd_iff_le h0).1 hdvd
  have hd := padicValNat_vrank_lt h0
  omega

theorem mark_notMem_plan {e : η} :
    (t, (.mark e : Action (Fin W.size) Str η)) ∉ plan root event i := by
  have hnot (q : ℕ) : (t, (.mark e : Action (Fin W.size) Str η)) ∉ sendPlan root i event q := by
    intro h
    obtain ⟨p, -, -, heq⟩ := mem_sendPlan.1 h
    simp at heq
  rw [plan]
  split <;> simp [hnot]

/-- **The tree is a timetable.** -/
theorem timetable_plan (root : Fin W.size) (event : Str) :
    Timetable (plan root event : Fin W.size → List (ℕ × Action (Fin W.size) Str η)) := by
  refine .of_unique (fun i => ?_) (fun i t t' a h h' => ?_)
  · rw [plan]
    split
    · exact sorted_sendPlan root i event (Nat.succ_le_of_lt log2_size_lt)
    · next h0 =>
      have hd := padicValNat_vrank_lt h0
      refine List.Pairwise.cons (fun x hx => ?_) (sorted_sendPlan root i event hd.le)
      obtain ⟨p, hp, -, rfl⟩ := mem_sendPlan.1 hx
      omega
  · cases a with
    | mark e => exact absurd h mark_notMem_plan
    | send dst key =>
      obtain ⟨-, p, -, hlt, rfl, hdst⟩ := send_mem_plan.1 h
      obtain ⟨-, p', -, hlt', rfl, hdst'⟩ := send_mem_plan.1 h'
      have hrank := congrArg (W.vrank root) (hdst.symm.trans hdst')
      rw [World.vrank_next hlt, World.vrank_next hlt', Nat.add_left_cancel_iff] at hrank
      rw [Nat.pow_right_injective le_rfl hrank]
    | recv src key =>
      obtain ⟨-, -, rfl, -⟩ := recv_mem_plan.1 h
      obtain ⟨-, -, rfl, -⟩ := recv_mem_plan.1 h'
      rfl

/-! ### The program -/

variable {fuel : ℕ}

theorem shape_broadcastLoop_true (ctx : Context W) (root : Fin W.size) (event : Str)
    (output : List Byte) (hq : q ≤ 31) (hfuel : q < fuel) :
    (broadcastLoop ctx event (W.vrank root ctx.rank) fuel (2 ^ q / 2) true output :
      LinkProc W η (List Byte)).Shape ((sendPlan root ctx.rank event q).map Prod.snd) := by
  induction q generalizing fuel with
  | zero =>
    obtain ⟨fuel, rfl⟩ := Nat.exists_eq_succ_of_ne_zero (Nat.ne_of_gt hfuel)
    exact .ret output
  | succ q ih =>
    obtain ⟨fuel, rfl⟩ := Nat.exists_eq_succ_of_ne_zero (Nat.ne_of_gt (Nat.zero_lt_of_lt hfuel))
    have hrest := ih (by omega) (show q < fuel by omega)
    have hhalf : 2 ^ (q + 1) / 2 = 2 ^ q := by rw [pow_succ, Nat.mul_div_cancel _ Nat.two_pos]
    have hpos := Nat.two_pow_pos q
    have hpow : 2 ^ q ≤ 2 ^ 31 := Nat.pow_le_pow_right Nat.two_pos (by omega)
    have hsum : Context.sizeAdd (W.vrank root ctx.rank) (2 ^ q) =
        W.vrank root ctx.rank + 2 ^ q := by
      have := World.vrank_lt root ctx.rank
      have := W.lt
      exact Nat.mod_eq_of_lt (by omega)
    rw [hhalf, broadcastLoop, if_pos hpos, hsum, sendPlan]
    simp only [Bool.not_true, Bool.false_eq_true, if_false]
    split
    · next hlt =>
      rw [Context.sendAsyncInternal_nextRank ctx hpos (by omega)]
      exact .send hrest
    · exact hrest

theorem shape_broadcastLoop_false (ctx : Context W) (root : Fin W.size) (event : Str)
    (output : List Byte) (h0 : W.vrank root ctx.rank ≠ 0)
    (hq : padicValNat 2 (W.vrank root ctx.rank) < q) (hq' : q ≤ 31) (hfuel : q < fuel) :
    (broadcastLoop ctx event (W.vrank root ctx.rank) fuel (2 ^ q / 2) false output :
      LinkProc W η (List Byte)).Shape ((plan root event ctx.rank).map Prod.snd) := by
  induction q generalizing fuel with
  | zero => omega
  | succ q ih =>
    obtain ⟨fuel, rfl⟩ := Nat.exists_eq_succ_of_ne_zero (Nat.ne_of_gt (Nat.zero_lt_of_lt hfuel))
    have hhalf : 2 ^ (q + 1) / 2 = 2 ^ q := by rw [pow_succ, Nat.mul_div_cancel _ Nat.two_pos]
    have hpos := Nat.two_pow_pos q
    have hlevel := padicValNat_dvd_iff_le (p := 2) (n := q) h0
    rw [hhalf, broadcastLoop, if_pos hpos, Bool.not_false]
    by_cases hd : q = padicValNat 2 (W.vrank root ctx.rank)
    · -- the turn of the party
      have hle := (two_pow_succ_dvd_sub h0).2
      rw [← hd] at hle
      have hlt := World.vrank_lt root ctx.rank
      rw [if_neg (not_not.2 (Nat.mod_eq_zero_of_dvd (hlevel.2 hd.le))),
        Context.recvInternal_prevRank ctx hpos (by omega), plan, if_neg h0, ← hd]
      exact .recv fun m => shape_broadcastLoop_true ctx root event m (by omega) (by omega)
    · rw [if_pos fun hmod => hd (by have := hlevel.1 (Nat.dvd_of_mod_eq_zero hmod); omega)]
      exact ih (by omega) (by omega) (by omega)

theorem bitFloor_size : bitFloor W.size = 2 ^ (Nat.log2 W.size + 1) / 2 := by
  rw [bitFloor, if_neg W.pos.ne', pow_succ, Nat.mul_div_cancel _ Nat.two_pos]

theorem padicValNat_vrank_le_log2 (h : W.vrank root i ≠ 0) :
    padicValNat 2 (W.vrank root i) < Nat.log2 W.size + 1 :=
  Nat.lt_succ_of_le ((Nat.le_log2 W.pos.ne').2
    ((two_pow_succ_dvd_sub h).2.trans (World.vrank_lt root i).le))

/-- **The program follows the tree.** -/
theorem shape_broadcast (ctx : Context W) (root : Fin W.size) (input : List Byte) :
    (broadcast ctx input root : LinkProc W η (List Byte × Context W)).Shape
      ((plan root (ctx.nextEvent "BCAST").1 ctx.rank).map Prod.snd) := by
  have hrank : (ctx.nextEvent "BCAST").2.rank = ctx.rank := rfl
  have hlog := log2_size_lt (W := W)
  rw [← List.append_nil ((plan root _ ctx.rank).map Prod.snd), broadcast]
  dsimp only
  rw [hrank, ringOffset_eq, bitFloor_size]
  refine Proc.Shape.bind ?_ fun output => .ret _
  by_cases h0 : W.vrank root ctx.rank = 0
  · rw [decide_eq_true h0, plan, if_pos h0]
    exact shape_broadcastLoop_true (ctx.nextEvent "BCAST").2 root _ input (by omega) (by omega)
  · rw [decide_eq_false h0]
    exact shape_broadcastLoop_false (ctx.nextEvent "BCAST").2 root _ input h0
      (padicValNat_vrank_le_log2 h0) (by omega) (by omega)

/-! ### The value -/

theorem meets_broadcastLoop_true (ctx : Context W) (i : Fin W.size) (event : Str) (vrank : ℕ)
    (value : List Byte) (fuel stride : ℕ) :
    (broadcastLoop ctx event vrank fuel stride true value : LinkProc W η (List Byte)).Meets i
      (fun e => e.msg = value) (fun output => output = value) := by
  induction fuel generalizing stride with
  | zero => trivial
  | succ fuel ih =>
    rw [broadcastLoop]
    simp only [Bool.not_true, Bool.false_eq_true, if_false]
    split
    · split
      · refine Proc.Meets.bind (Q := fun _ => True) ?_ fun _ _ => ih _
        rw [Context.sendAsyncInternal]
        split
        · exact ⟨rfl, trivial⟩
        · trivial
      · exact ih _
    · exact rfl

theorem meets_broadcastLoop_false (ctx : Context W) (i : Fin W.size) (event : Str) (vrank : ℕ)
    (input value : List Byte) (hq : 0 < q) :
    (broadcastLoop ctx event vrank fuel (2 ^ q / 2) false input : LinkProc W η (List Byte)).Meets i
      (fun e => e.msg = value) (fun output => output = value) := by
  induction q generalizing fuel with
  | zero => omega
  | succ q ih =>
    cases fuel with
    | zero => trivial
    | succ fuel =>
      have hhalf : 2 ^ (q + 1) / 2 = 2 ^ q := by rw [pow_succ, Nat.mul_div_cancel _ Nat.two_pos]
      rw [hhalf, broadcastLoop, if_pos (Nat.two_pow_pos q), Bool.not_false, if_pos rfl]
      split
      · next hmod =>
        -- the last stride divides every rank
        refine ih (Nat.pos_of_ne_zero fun hzero => hmod ?_)
        rw [hzero, pow_zero, Nat.mod_one]
      · refine Proc.Meets.bind (Q := fun output => output = value) ?_ fun output houtput => ?_
        · rw [Context.recvInternal]
          split
          · exact fun m hm => hm
          · trivial
        · subst houtput
          exact meets_broadcastLoop_true ctx i event vrank output fuel _

theorem meets_broadcast (C : Contexts W) (root i : Fin W.size)
    (input : Fin W.size → List Byte) :
    (broadcast (C.ctx i) (input i) root : LinkProc W η (List Byte × Context W)).Meets i
      (fun e => e.msg = input root) (fun r => r.1 = input root) := by
  have hrank : ((C.ctx i).nextEvent "BCAST").2.rank = i := C.rank_eq i
  rw [broadcast]
  dsimp only
  rw [hrank, ringOffset_eq, bitFloor_size]
  refine Proc.Meets.bind ?_ fun output h => h
  by_cases h0 : W.vrank root i = 0
  · rw [decide_eq_true h0, World.vrank_eq_zero_iff.1 h0]
    exact meets_broadcastLoop_true _ _ _ _ _ _ _
  · rw [decide_eq_false h0]
    exact meets_broadcastLoop_false _ _ _ _ _ _ (Nat.succ_pos _)

/-! ### All interleavings -/

theorem length_plan_le (root i : Fin W.size) (event : Str) :
    (plan root event i : List (ℕ × Action (Fin W.size) Str η)).length ≤ 32 := by
  have hsend (q : ℕ) :
      (sendPlan root i event q : List (ℕ × Action (Fin W.size) Str η)).length ≤ q := by
    induction q with
    | zero => exact le_rfl
    | succ q ih =>
      rw [sendPlan]
      split
      · exact Nat.succ_le_succ ih
      · exact ih.trans (Nat.le_succ q)
  rw [plan]
  split
  · have := log2_size_lt (W := W)
    exact (hsend _).trans (by omega)
  · next h0 =>
    have := padicValNat_vrank_lt h0
    have := hsend (padicValNat 2 (W.vrank root i))
    rw [List.length_cons]
    omega

theorem countP_isRecv_plan (root i : Fin W.size) (event : Str) :
    ((plan root event i : List (ℕ × Action (Fin W.size) Str η)).map Prod.snd).countP
      Action.isRecv = if i = root then 0 else 1 := by
  have hsend (q : ℕ) : ((sendPlan root i event q : List (ℕ × Action (Fin W.size) Str η)).map
      Prod.snd).countP Action.isRecv = 0 := by
    refine List.countP_eq_zero.2 fun a ha => ?_
    obtain ⟨x, hx, rfl⟩ := List.mem_map.1 ha
    obtain ⟨p, -, -, rfl⟩ := mem_sendPlan.1 hx
    exact Bool.false_ne_true
  rw [plan, if_congr World.vrank_eq_zero_iff rfl rfl]
  split
  · exact hsend _
  · rw [List.map_cons, List.countP_cons, hsend]
    rfl

/-- **Broadcast.** Runs are bounded and go on until no step is possible. In every run, whoever
receives gets the value of the root, from a party that has it already. When no step is possible any
more, all parties have returned the value of the root, every party but the root has received one
message, and every message that was sent has been received. -/
theorem broadcast_correct (C : Contexts W) (root : Fin W.size) (input : Fin W.size → List Byte) :
    let start : Config (Fin W.size) Str (List Byte) Empty Exception (List Byte × Context W) :=
      .start fun i => broadcast (C.ctx i) (input i) root
    (∀ tr c, Run start tr c →
      tr.length ≤ 64 * W.size ∧ ∃ tr' c', Run start (tr ++ tr') c' ∧ Stuck c') ∧
    (∀ l₁ l₂ e c, Run start (l₁ ++ .recv e :: l₂) c → e.msg = input root ∧
      (e.slot.src = root ∨ ∃ e', .recv e' ∈ l₁ ∧ e'.slot.dst = e.slot.src)) ∧
    ∀ tr c, Run start tr c → Stuck c →
      (∀ i, ∃ ctx, c.procs i = .ret (input root, ctx)) ∧
      (∀ i, receives i tr = if i = root then 0 else 1) ∧
      (∀ e, Label.drop e ∉ tr) ∧ (∀ s, sends s tr = recvs s tr) ∧
      c.transit = [] ∧ ∀ s, c.mailbox s = none := by
  intro start
  have hshape (i : Fin W.size) : (broadcast (C.ctx i) (input i) root :
      LinkProc W Empty (List Byte × Context W)).Shape
        ((plan root (C.event "BCAST") i).map Prod.snd) := by
    have hctx := shape_broadcast (η := Empty) (C.ctx i) root (input i)
    rwa [C.nextEvent_eq, C.rank_eq] at hctx
  have hplan := timetable_plan (η := Empty) root (C.event "BCAST")
  have hmeets := fun i => meets_broadcast (η := Empty) C root i input
  refine ⟨fun tr c h => ⟨(h.length_le hshape).trans ?_, h.exists_stuck hshape⟩,
    fun l₁ l₂ e c h => ⟨?_, ?_⟩, fun tr c h hstuck => ?_⟩
  · have hsum : ∑ i, ((plan root (C.event "BCAST") i :
        List (ℕ × Action (Fin W.size) Str Empty)).map Prod.snd).length ≤
        ∑ _i : Fin W.size, 32 :=
      Finset.sum_le_sum fun i _ => by rw [List.length_map]; exact length_plan_le root i _
    rw [Finset.sum_const, Finset.card_univ, Fintype.card_fin, smul_eq_mul] at hsum
    omega
  · exact (h.meets hmeets).2.2.2 e (by simp)
  · rw [or_iff_not_imp_left]
    intro hroot
    -- the sender has sent, and it does not send before it has received
    have hsent := h.send_mem_of_recv hshape hplan.nodup
    obtain ⟨c₁, h₁⟩ := h.left
    obtain ⟨t, ht⟩ := h₁.exists_time hshape hsent
    have h0 : W.vrank root e.slot.src ≠ 0 := mt World.vrank_eq_zero_iff.1 hroot
    have hrecv := h₁.mem_performed_of_lt hplan hshape hsent ht
      (recv_mem_plan.2 ⟨rfl, h0, rfl, rfl⟩) (recv_lt_send h0 ht)
    obtain ⟨e', he', hslot⟩ := exists_of_recv_mem_performed hrecv
    exact ⟨e', he', by rw [hslot]⟩
  · obtain ⟨hperformed, hret, htransit, hbox⟩ := h.completed hplan hshape
      (fun i t src key => plan_recv_sent) (fun i t dst key => plan_sent_received) hstuck
    refine ⟨fun i => ?_, fun i => ?_, h.drop_notMem hshape hplan.nodup, fun s => ?_, htransit, hbox⟩
    · obtain ⟨⟨output, ctx⟩, hi⟩ := hret i
      have hvalue := (h.meets hmeets).1 i
      rw [hi] at hvalue
      obtain rfl : output = input root := hvalue
      exact ⟨ctx, hi⟩
    · rw [receives, hperformed, countP_isRecv_plan]
    · rw [(h.balance hshape hplan.nodup).2 s, pending, htransit, hbox]
      simp

end Broadcast

end Yacl.Link
