import Yacl.Lib.Network
import Yacl.Link.ChannelKey

/-!
# Contexts

The ranks, the counters and the messages of a `Context` (`yacl/link/context.cc`). The code of one
party is a process of `Network`: `SendAsyncInternal` and `RecvInternal` go to the channel of the
other party, which delivers reliably, at any time, and finds a message by its key. There is no
channel from a party to itself.

`counter_` and `child_counter_` have 64 bits and count calls, so they do not overflow. An entry of
`p2p_counter_` is an `int`: its overflow is undefined behaviour (`incrementP2p`).

The ranks before and after a party on the ring are reduced modulo `2 ^ 64` and then modulo the
number of parties; the two directions are inverse to each other for every stride only if this number
divides `2 ^ 64`.
-/

open Bytes Network

namespace Yacl.Link

/-- The parties. The constructor of a context makes a map with an entry for every pair of them, so
that their number is far below `2 ^ 31`. -/
structure World where
  size : ℕ
  pos : 0 < size
  lt : size < 2 ^ 31

/-- `Context`: a party with its counters, from which the keys of its messages are made. -/
structure Context (W : World) where
  /-- `desc_.id`. -/
  id : Str
  /-- `rank_`. -/
  rank : Fin W.size
  /-- `counter_`. -/
  counter : ℕ
  /-- `p2p_counter_`. -/
  p2pCounter : ℕ × ℕ → ℕ
  /-- `child_counter_`. -/
  childCounter : ℕ

/-- The code of one party of a link: buffers are lists of bytes, and `η` is the type of the marks in
the trace. -/
abbrev LinkProc (W : World) (η α : Type) := Proc (Fin W.size) Str (List Byte) η Exception α

namespace Context

variable {W : World} {η : Type}

/-- The constructor. -/
def make (id : Str) (rank : Fin W.size) : Context W :=
  { id := id, rank := rank, counter := 0, p2pCounter := fun _ => 0, childCounter := 0 }

/-! ### Ranks -/

/-- The difference of two `size_t`. -/
def sizeSub (a b : ℕ) : ℕ := (a + 2 ^ 64 - b) % 2 ^ 64

/-- The sum of two `size_t`. -/
def sizeAdd (a b : ℕ) : ℕ := (a + b) % 2 ^ 64

/-- `PrevRank`. -/
def prevRank (ctx : Context W) (stride : ℕ) : ℕ :=
  sizeAdd (sizeSub ctx.rank stride) W.size % W.size

/-- `NextRank`. -/
def nextRank (ctx : Context W) (stride : ℕ) : ℕ := sizeAdd ctx.rank stride % W.size

/-! ### Messages -/

/-- The check in `SendAsyncInternal` and `RecvInternal`, and the channel, which is a null pointer
for the party itself. -/
def channel (ctx : Context W) (rank : ℕ) (name : String) : Except Exception (Fin W.size) :=
  if h : rank < W.size then
    if ctx.rank = ⟨rank, h⟩ then .error .undefinedBehaviour else .ok ⟨rank, h⟩
  else
    let size := W.size
    .error (.enforceNotMet (name ++ " < static_cast<size_t>(channels_.size())")
      s!"rank={rank} out of range={size}")

/-- `SendAsyncInternal`. -/
def sendAsyncInternal (ctx : Context W) (dstRank : ℕ) (key : Str) (value : List Byte) :
    LinkProc W η Unit :=
  match ctx.channel dstRank "dst_rank" with
  | .ok dst => Proc.sendMsg dst key value
  | .error e => .throw e

/-- `RecvInternal`. -/
def recvInternal (ctx : Context W) (srcRank : ℕ) (key : Str) : LinkProc W η (List Byte) :=
  match ctx.channel srcRank "src_rank" with
  | .ok src => Proc.recvMsg src key
  | .error e => .throw e

/-! ### Keys -/

/-- The bytes of a text of ASCII characters. -/
def ascii (s : String) : Str := s.toList.map fun c => BitVec.ofNat 8 c.toNat

/-- `NextId`. The counter is a `size_t`, and not bounded here: the model is about contexts with
fewer than `2 ^ 64` calls of collective algorithms. -/
def nextId (ctx : Context W) : Str × Context W :=
  let ctx := { ctx with counter := ctx.counter + 1 }
  (ctx.id ++ ascii ":" ++ toDecimal ctx.counter, ctx)

/-- The first line of a collective algorithm, which makes the key of its messages. -/
def nextEvent (ctx : Context W) (kType : String) : Str × Context W :=
  (ctx.nextId.1 ++ ascii ":" ++ ascii kType, ctx.nextId.2)

/-- `++p2p_counter_[direction]`. -/
def incrementP2p (ctx : Context W) (direction : ℕ × ℕ) : Except Exception (Context W) := do
  let count := ctx.p2pCounter direction + 1
  definedIf (count < 2 ^ 31)
  pure { ctx with p2pCounter := Function.update ctx.p2pCounter direction count }

/-- `NextP2PId`. -/
def nextP2pId (ctx : Context W) (srcRank dstRank : ℕ) : Except Exception (Str × Context W) := do
  let ctx ← ctx.incrementP2p (srcRank, dstRank)
  pure (ctx.id ++ ascii ":P2P-" ++ toDecimal (ctx.p2pCounter (srcRank, dstRank)) ++ ascii ":" ++
    toDecimal srcRank ++ ascii "->" ++ toDecimal dstRank, ctx)

theorem nextP2pId_of_lt (ctx : Context W) {srcRank dstRank : ℕ}
    (h : ctx.p2pCounter (srcRank, dstRank) + 1 < 2 ^ 31) :
    ctx.nextP2pId srcRank dstRank =
      .ok (ctx.id ++ ascii ":P2P-" ++ toDecimal (ctx.p2pCounter (srcRank, dstRank) + 1) ++
          ascii ":" ++ toDecimal srcRank ++ ascii "->" ++ toDecimal dstRank,
        { ctx with
          p2pCounter := Function.update ctx.p2pCounter (srcRank, dstRank)
            (ctx.p2pCounter (srcRank, dstRank) + 1) }) := by
  rw [nextP2pId, incrementP2p, definedIf_bind h]
  refine congrArg Except.ok ?_
  dsimp only
  rw [Function.update_self]

theorem nextP2pId_of_le (ctx : Context W) {srcRank dstRank : ℕ}
    (h : 2 ^ 31 ≤ ctx.p2pCounter (srcRank, dstRank) + 1) :
    ctx.nextP2pId srcRank dstRank = .error .undefinedBehaviour := by
  rw [nextP2pId, incrementP2p, definedIf, if_neg (Nat.not_lt.2 h)]
  rfl

/-- `SendAsync`, `SendAsyncThrottled` and `Send`, which differ in what they wait for. -/
def sendAsync (ctx : Context W) (dstRank : ℕ) (value : List Byte) :
    LinkProc W η (Context W) := do
  let (event, ctx) ← Proc.ofExcept (ctx.nextP2pId ctx.rank dstRank)
  ctx.sendAsyncInternal dstRank event value
  pure ctx

/-- `Recv`. -/
def recv (ctx : Context W) (srcRank : ℕ) : LinkProc W η (List Byte × Context W) := do
  let (event, ctx) ← Proc.ofExcept (ctx.nextP2pId srcRank ctx.rank)
  let value ← ctx.recvInternal srcRank event
  pure (value, ctx)

/-- `Spawn` without an id: the new context, and the old one. The counter is a `size_t` as in
`nextId`, so a context has fewer than `2 ^ 64` children. -/
def spawn (ctx : Context W) : Context W × Context W :=
  (make (ctx.id ++ ascii "-" ++ toDecimal ctx.childCounter) ctx.rank,
    { ctx with childCounter := ctx.childCounter + 1 })

theorem counter_eq_of_nextEvent (ctx ctx' : Context W) {kType : String} (hid : ctx.id = ctx'.id)
    (h : (ctx.nextEvent kType).1 = (ctx'.nextEvent kType).1) : ctx.counter = ctx'.counter := by
  simp only [nextEvent, nextId, hid, List.append_cancel_right_eq, List.append_cancel_left_eq] at h
  exact Nat.succ_injective (toDecimal_injective h)

end Context

/-! ### The ring of the ranks -/

namespace World

variable (W : World)

/-- The party that is `stride` places further on the ring. -/
def next (i : Fin W.size) (stride : ℕ) : Fin W.size :=
  ⟨(i + stride) % W.size, Nat.mod_lt _ W.pos⟩

/-- The party that is `stride` places back on the ring. -/
def prev (i : Fin W.size) (stride : ℕ) : Fin W.size :=
  ⟨(i + W.size - stride) % W.size, Nat.mod_lt _ W.pos⟩

variable {W}
variable {a : ℕ}

theorem mod_eq_ite {n : ℕ} (h : a < 2 * n) : a % n = if a < n then a else a - n := by
  split
  · next hlt => exact Nat.mod_eq_of_lt hlt
  · next hge => rw [Nat.mod_eq_sub_mod (by omega), Nat.mod_eq_of_lt (by omega)]

variable {i : Fin W.size} {stride : ℕ}

theorem val_next (h : stride ≤ W.size) :
    (W.next i stride : ℕ) =
      if i + stride < W.size then i + stride else i + stride - W.size :=
  mod_eq_ite (by omega)

theorem val_prev (h : stride ≤ W.size) :
    (W.prev i stride : ℕ) = if stride ≤ i then (i : ℕ) - stride else i + W.size - stride := by
  refine (mod_eq_ite (by omega)).trans ?_
  split <;> split <;> omega

theorem next_prev (h : stride ≤ W.size) : W.next (W.prev i stride) stride = i := by
  refine Fin.ext ?_
  rw [val_next h, val_prev h]
  split <;> split <;> omega

theorem prev_next (h : stride ≤ W.size) : W.prev (W.next i stride) stride = i := by
  refine Fin.ext ?_
  rw [val_prev h, val_next h]
  split <;> split <;> omega

variable {b : ℕ}

theorem next_inj (ha : a < W.size) (hb : b < W.size) (h : W.next i a = W.next i b) : a = b := by
  have hval := congrArg Fin.val h
  rw [val_next ha.le, val_next hb.le] at hval
  split at hval <;> split at hval <;> omega

theorem prev_inj (ha : a < W.size) (hb : b < W.size) (h : W.prev i a = W.prev i b) : a = b := by
  have hval := congrArg Fin.val h
  rw [val_prev ha.le, val_prev hb.le] at hval
  split at hval <;> split at hval <;> omega

theorem prev_zero (i : Fin W.size) : W.prev i 0 = i := by
  refine Fin.ext ?_
  rw [val_prev (Nat.zero_le _), if_pos (Nat.zero_le _), Nat.sub_zero]

theorem prev_prev (h : a + b < W.size) : W.prev (W.prev i a) b = W.prev i (a + b) := by
  refine Fin.ext ?_
  rw [val_prev (by omega), val_prev (by omega), val_prev h.le]
  split <;> split <;> split <;> omega

theorem exists_prev_eq (i j : Fin W.size) : ∃ d < W.size, W.prev i d = j := by
  refine ⟨(i + W.size - j) % W.size, Nat.mod_lt _ W.pos, Fin.ext ?_⟩
  rw [val_prev (Nat.mod_lt _ W.pos).le, mod_eq_ite (by omega)]
  split <;> split <;> omega

theorem next_ne (h0 : 0 < stride) (h : stride < W.size) : i ≠ W.next i stride := by
  intro heq
  have hval := congrArg Fin.val heq
  rw [val_next h.le] at hval
  split at hval <;> omega

theorem prev_ne (h0 : 0 < stride) (h : stride < W.size) : i ≠ W.prev i stride := by
  intro heq
  have hval := congrArg Fin.val heq
  rw [val_prev h.le] at hval
  split at hval <;> omega

end World

namespace Context

variable {W : World} {η : Type}
variable {stride : ℕ}

theorem nextRank_eq (ctx : Context W) (h : stride ≤ W.size) :
    ctx.nextRank stride = W.next ctx.rank stride := by
  have := W.lt
  have hsum : sizeAdd ctx.rank stride = ctx.rank + stride := Nat.mod_eq_of_lt (by omega)
  rw [nextRank, hsum]
  rfl

theorem prevRank_eq (ctx : Context W) (h : stride ≤ W.size) :
    ctx.prevRank stride = W.prev ctx.rank stride := by
  have := W.lt
  have hwrap : sizeAdd (sizeSub ctx.rank stride) W.size = ctx.rank + W.size - stride := by
    rw [sizeAdd, sizeSub]
    omega
  rw [prevRank, hwrap]
  rfl

theorem channel_eq (ctx : Context W) {rank : Fin W.size} (h : ctx.rank ≠ rank) (name : String) :
    ctx.channel rank name = .ok rank := by
  rw [channel, dif_pos rank.2, if_neg h]

theorem sendAsyncInternal_nextRank (ctx : Context W) (h0 : 0 < stride) (h : stride < W.size)
    (key : Str) (value : List Byte) :
    (ctx.sendAsyncInternal (ctx.nextRank stride) key value : LinkProc W η Unit) =
      Proc.sendMsg (W.next ctx.rank stride) key value := by
  rw [sendAsyncInternal, nextRank_eq ctx h.le, channel_eq ctx (World.next_ne h0 h)]

theorem recvInternal_prevRank (ctx : Context W) (h0 : 0 < stride) (h : stride < W.size)
    (key : Str) :
    (ctx.recvInternal (ctx.prevRank stride) key : LinkProc W η (List Byte)) =
      Proc.recvMsg (W.prev ctx.rank stride) key := by
  rw [recvInternal, prevRank_eq ctx h.le, channel_eq ctx (World.prev_ne h0 h)]

/-- The sum in `NextRank`, if it does not wrap or the wrapping does not matter. -/
theorem nextRank_modEq (ctx : Context W) (h : ctx.rank + stride < 2 ^ 64 ∨ W.size ∣ 2 ^ 64) :
    ctx.nextRank stride ≡ ctx.rank + stride [MOD W.size] := by
  refine (Nat.mod_modEq _ _).trans ?_
  rw [sizeAdd]
  rcases h with h | h
  · rw [Nat.mod_eq_of_lt h]
  · exact (Nat.mod_modEq _ _).of_dvd h

/-- The difference in `PrevRank`, if it wraps and the sum does not or the wrapping does not
matter. -/
theorem prevRank_add_modEq (ctx : Context W) (hstride : stride < 2 ^ 64)
    (h : ctx.rank + W.size < stride ∨ W.size ∣ 2 ^ 64) :
    ctx.prevRank stride + stride ≡ ctx.rank + 2 ^ 64 [MOD W.size] := by
  have hsum : ctx.rank + 2 ^ 64 - stride + W.size + stride = ctx.rank + 2 ^ 64 + W.size := by omega
  have hwrap : sizeAdd (sizeSub ctx.rank stride) W.size ≡ ctx.rank + 2 ^ 64 - stride + W.size
      [MOD W.size] := by
    rw [sizeAdd, sizeSub]
    rcases h with h | h
    · rw [Nat.mod_eq_of_lt (by omega), Nat.mod_eq_of_lt (by omega)]
    · exact ((Nat.mod_modEq _ _).of_dvd h).trans (((Nat.mod_modEq _ _).of_dvd h).add_right _)
  have hprev := ((Nat.mod_modEq _ _).trans hwrap).add_right stride
  rw [hsum] at hprev
  exact hprev.trans (Nat.add_modEq_right ..)

end Context

/-! ### The ring -/

/-- The party at `NextRank` is led back by `PrevRank`, and the other way round. -/
def World.RingNeighbours (W : World) (stride : ℕ) : Prop :=
  ∀ ctx ctx' : Context W,
    (ctx'.rank = ctx.nextRank stride → ctx'.prevRank stride = ctx.rank) ∧
      (ctx'.rank = ctx.prevRank stride → ctx'.nextRank stride = ctx.rank)

namespace World

variable {W : World} {stride : ℕ}

theorem ringNeighbours_of_dvd (h : W.size ∣ 2 ^ 64) (hstride : stride < 2 ^ 64) :
    W.RingNeighbours stride := by
  have hzero (x : ℕ) : x + 2 ^ 64 ≡ x [MOD W.size] :=
    (Nat.modEq_zero_iff_dvd.mpr h).add_left x
  intro ctx ctx'
  refine ⟨fun hrank => ?_, fun hrank => ?_⟩
  · have hnext : ctx.nextRank stride ≡ _ [MOD W.size] := ctx.nextRank_modEq (.inr h)
    have hprev := (ctx'.prevRank_add_modEq hstride (.inr h)).trans (hzero _)
    rw [hrank] at hprev
    exact ((hprev.trans hnext).add_right_cancel' _).eq_of_lt_of_lt (Nat.mod_lt _ W.pos) ctx.rank.2
  · have hprev := (ctx.prevRank_add_modEq hstride (.inr h)).trans (hzero _)
    have hnext : ctx'.nextRank stride ≡ _ [MOD W.size] := ctx'.nextRank_modEq (.inr h)
    rw [hrank] at hnext
    exact (hnext.trans hprev).eq_of_lt_of_lt (Nat.mod_lt _ W.pos) ctx.rank.2

theorem dvd_of_ringNeighbours (hstride : stride < 2 ^ 64) (h : W.RingNeighbours stride)
    (hlt : W.size < stride) : W.size ∣ 2 ^ 64 := by
  have hW := W.lt
  -- a party whose way there does not wrap, and whose way back does
  have key (r : Fin W.size) (hsum : r + stride < 2 ^ 64)
      (hback : (r + stride) % W.size + W.size < stride) : W.size ∣ 2 ^ 64 := by
    have hrank : (r + stride) % W.size = (Context.make [] r).nextRank stride := by
      rw [Context.nextRank, Context.sizeAdd, Context.make, Nat.mod_eq_of_lt hsum]
    have hprev := (h (.make [] r) (.make [] ⟨(r + stride) % W.size, Nat.mod_lt _ W.pos⟩)).1 hrank
    have hmod := Context.prevRank_add_modEq
      (.make [] ⟨(r + stride) % W.size, Nat.mod_lt _ W.pos⟩) hstride (.inl hback)
    rw [hprev] at hmod
    have hcancel := hmod.trans ((Nat.mod_modEq (r + stride) W.size).add_right (2 ^ 64))
    exact Nat.modEq_zero_iff_dvd.mp (hcancel.symm.add_left_cancel' _)
  rcases Nat.lt_or_ge stride (2 * W.size) with h2 | h2
  · refine key ⟨2 * W.size - stride, by omega⟩ (by dsimp only; omega) ?_
    rw [Nat.sub_add_cancel h2.le, Nat.mul_mod_left]
    omega
  · have hmod := Nat.mod_lt stride W.pos
    refine key ⟨0, W.pos⟩ (by dsimp only; omega) ?_
    rw [Nat.zero_add]
    omega

end World

/-- **`PrevRank` undoes `NextRank`** and the other way round at every rank just if the number of
parties divides `2 ^ 64` or the stride goes round the ring at most once. -/
theorem ringNeighbours_iff {W : World} {stride : ℕ} (hstride : stride < 2 ^ 64) :
    W.RingNeighbours stride ↔ W.size ∣ 2 ^ 64 ∨ stride ≤ W.size := by
  refine ⟨fun h => ?_, ?_⟩
  · rcases Nat.lt_or_ge W.size stride with hlt | hle
    · exact .inl (World.dvd_of_ringNeighbours hstride h hlt)
    · exact .inr hle
  · rintro (h | h)
    · exact World.ringNeighbours_of_dvd h hstride
    · intro ctx ctx'
      refine ⟨fun hrank => ?_, fun hrank => ?_⟩
      · rw [ctx.nextRank_eq h, Fin.val_inj] at hrank
        rw [ctx'.prevRank_eq h, hrank, World.prev_next h]
      · rw [ctx.prevRank_eq h, Fin.val_inj] at hrank
        rw [ctx'.nextRank_eq h, hrank, World.next_prev h]

/-- Three parties. -/
def threeParties : World := { size := 3, pos := by decide, lt := by decide }

theorem ringNeighbours_three_iff :
    threeParties.RingNeighbours 3 ↔ threeParties.size ∣ 2 ^ 64 ∨ 3 ≤ threeParties.size :=
  ringNeighbours_iff (by decide)

/-- The party after four steps from party 2 of three is party 0, which is led back to itself. -/
theorem not_ringNeighbours_three_four : ¬threeParties.RingNeighbours 4 := fun h =>
  absurd ((h (.make [] ⟨2, by decide⟩) (.make [] ⟨0, by decide⟩)).1 (by decide)) (by decide)

/-! ### The contexts of all parties -/

/-- The contexts of the parties of a link, which have called the same number of collective
algorithms. -/
structure Contexts (W : World) where
  ctx : Fin W.size → Context W
  rank_eq : ∀ i, (ctx i).rank = i
  id_eq : ∀ i j, (ctx i).id = (ctx j).id
  counter_eq : ∀ i j, (ctx i).counter = (ctx j).counter

namespace Contexts

variable {W : World} (C : Contexts W)

/-- New contexts. -/
def make (W : World) (id : Str) : Contexts W where
  ctx i := Context.make id i
  rank_eq _ := rfl
  id_eq _ _ := rfl
  counter_eq _ _ := rfl

/-- The key of the next collective algorithm. -/
def event (kType : String) : Str := ((C.ctx ⟨0, W.pos⟩).nextEvent kType).1

theorem nextEvent_eq (i : Fin W.size) (kType : String) :
    ((C.ctx i).nextEvent kType).1 = C.event kType := by
  simp only [event, Context.nextEvent, Context.nextId, C.id_eq i ⟨0, W.pos⟩,
    C.counter_eq i ⟨0, W.pos⟩]

end Contexts

end Yacl.Link
