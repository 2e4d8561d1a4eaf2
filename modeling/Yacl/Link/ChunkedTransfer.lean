import Yacl.Link.ChunkedMessage

/-!
# Transfer in chunks

The requests that `SendImpl` makes of a message, and how the receiver puts them together again,
from `yacl/link/transport/channel.cc`. A request stands for what `UnpackMonoRequest` and
`UnpackChunckRequest` read from it. A handler thread of the receiver takes two mutexes one after the
other: `chunked_values_mutex_` for the chunk, and `msg_mutex_` for the message if the chunk was the
last one. In between the message is in the hands of the thread (`Inbox.handlers`).

The chunks of an honest sender may come in any order and any number of times. A message that is
being put together has exactly the bytes of the chunks that came (`ChunkedMessage.Holds`), so it is
full exactly if all of them came; chunks that come later start a second copy of the same message.
`Inbox.Inv` says this for everything that was ever sent, and no request throws
(`Inbox.Inv.onRequest`).
-/

open Bytes

namespace Yacl.Link

/-- A request, unpacked: a message in one piece, or a chunk of a message. -/
inductive Request where
  | mono (key : Str) (value : List Byte)
  | chunked (r : ChunkRequest)
deriving DecidableEq

/-- The key of a request. -/
def Request.key : Request → Str
  | .mono key _ => key
  | .chunked r => r.key

/-- `num_chunks`, for a positive size of the chunks. -/
def numChunks (bytesPerChunk numBytes : ℕ) : ℕ :=
  (numBytes + bytesPerChunk - 1) % 2 ^ 64 / bytesPerChunk

/-- `PackChunkedRequest` for one chunk. -/
def packChunk (bytesPerChunk : ℕ) (key : Str) (value : List Byte) (chunkIdx : ℕ) :
    ChunkRequest where
  key := key
  value := (value.drop (chunkIdx * bytesPerChunk)).take
    (min bytesPerChunk (value.length - chunkIdx * bytesPerChunk))
  offset := BitVec.ofNat 64 (chunkIdx * bytesPerChunk)
  totalLength := BitVec.ofNat 64 value.length

/-- The requests of `SendChunked`. -/
def sendChunked (bytesPerChunk : ℕ) (key : Str) (value : List Byte) : List Request :=
  (List.range (numChunks bytesPerChunk value.length)).map fun chunkIdx =>
    .chunked (packChunk bytesPerChunk key value chunkIdx)

/-- The requests of `SendImpl`. -/
def sendImpl (bytesPerChunk : ℕ) (key : Str) (value : List Byte) : List Request :=
  if value.length > bytesPerChunk then sendChunked bytesPerChunk key value else [.mono key value]

/-! ### The chunks of a value -/

section Chunks

variable {B : ℕ} {v : List Byte}
variable {j : ℕ}

theorem lt_numChunks_iff (hB : 1 ≤ B) (hv : B < v.length) (hlen : v.length < 2 ^ 63) :
    j < numChunks B v.length ↔ j * B < v.length := by
  rw [numChunks, Nat.lt_div_iff_mul_lt (by omega)]
  omega

theorem mem_sendChunked {key : Str} {r : Request} :
    r ∈ sendChunked B key v ↔
      ∃ j < numChunks B v.length, r = .chunked (packChunk B key v j) := by
  rw [sendChunked, List.mem_map]
  simp only [List.mem_range, eq_comm]

theorem key_of_mem_sendImpl {key : Str} {r : Request} (hr : r ∈ sendImpl B key v) :
    r.key = key := by
  rw [sendImpl] at hr
  split at hr
  · obtain ⟨j, -, rfl⟩ := mem_sendChunked.mp hr
    rfl
  · rw [List.mem_singleton.mp hr]
    rfl

/-- The number of bytes of a chunk. -/
def chunkSize (B : ℕ) (v : List Byte) (j : ℕ) : ℕ := min B (v.length - j * B)

theorem length_packChunk (key : Str) (j : ℕ) :
    (packChunk B key v j).value.length = chunkSize B v j := by
  rw [packChunk, List.length_take, List.length_drop, chunkSize]
  omega

theorem getElem?_packChunk (key : Str) {i : ℕ} (h : i < chunkSize B v j) :
    (packChunk B key v j).value[i]? = v[j * B + i]? := by
  rw [chunkSize] at h
  rw [packChunk, List.getElem?_take_of_lt h, List.getElem?_drop]

theorem toNat_offset_packChunk (key : Str) (hj : j * B < v.length) (hlen : v.length < 2 ^ 63) :
    (packChunk B key v j).offset.toNat = j * B := by
  rw [packChunk, BitVec.toNat_ofNat, Nat.mod_eq_of_lt (by omega)]

theorem toInt_offset_packChunk (key : Str) (hj : j * B < v.length) (hlen : v.length < 2 ^ 63) :
    (packChunk B key v j).offset.toInt = ((j * B : ℕ) : ℤ) := by
  rw [BitVec.toInt_eq_toNat_of_lt, toNat_offset_packChunk key hj hlen]
  rw [toNat_offset_packChunk key hj hlen]
  omega

theorem toNat_totalLength_packChunk (key : Str) (j : ℕ) (hlen : v.length < 2 ^ 63) :
    (packChunk B key v j).totalLength.toNat = v.length := by
  rw [packChunk, BitVec.toNat_ofNat, Nat.mod_eq_of_lt (by omega)]

theorem toInt_totalLength_packChunk (key : Str) (j : ℕ) (hlen : v.length < 2 ^ 63) :
    (packChunk B key v j).totalLength.toInt = (v.length : ℤ) := by
  rw [BitVec.toInt_eq_toNat_of_lt, toNat_totalLength_packChunk key j hlen]
  rw [toNat_totalLength_packChunk key j hlen]
  omega

/-! ### A message that is being put together -/

namespace ChunkedMessage

/-- The chunk with an index came. -/
def Has (m : ChunkedMessage) (B j : ℕ) : Prop := ((j * B : ℕ) : ℤ) ∈ m.received

instance (m : ChunkedMessage) (B j : ℕ) : Decidable (m.Has B j) :=
  inferInstanceAs (Decidable (_ ∈ _))

/-- **The bytes of the chunks that came**, and no others. -/
structure Holds (m : ChunkedMessage) (B : ℕ) (v : List Byte) : Prop where
  bytesWritten : m.bytesWritten =
    ((Finset.range v.length).filter fun x => m.Has B (x / B)).card
  length : m.message.length = v.length
  content : ∀ x < v.length, m.message[x]? = some (if m.Has B (x / B) then v[x]? else none)

theorem make_holds (v : List Byte) (B : ℕ) :
    ∃ m, make true v.length = .ok m ∧ m.Holds B v ∧ ∀ j, ¬m.Has B j := by
  have hno : ∀ j, ¬(⟨[], 0, List.replicate v.length none⟩ : ChunkedMessage).Has B j :=
    fun j => List.not_mem_nil
  refine ⟨⟨[], 0, List.replicate v.length none⟩, ?_, ?_, hno⟩
  · rfl
  constructor
  · rw [Finset.filter_false_of_mem fun x _ => hno _]
    rfl
  · exact List.length_replicate
  · intro x hx
    exact List.getElem?_replicate_of_lt hx

variable {j : ℕ}

/-- A byte belongs to the chunk that its position divided by the size gives. -/
theorem div_eq_iff_mem (hB : 1 ≤ B) {x : ℕ} (hx : x < v.length) :
    x / B = j ↔ j * B ≤ x ∧ x < j * B + chunkSize B v j := by
  rw [Nat.div_eq_iff (by omega), chunkSize]
  omega

variable {m : ChunkedMessage}

theorem Holds.write (h : m.Holds B v) (hB : 1 ≤ B) (hj : j * B < v.length) (hnew : ¬m.Has B j)
    (key : Str) {m' : ChunkedMessage}
    (hm' : m.write ((j * B : ℕ) : ℤ) (packChunk B key v j).value = m')
    (hhas : ∀ i, m'.Has B i ↔ m.Has B i ∨ i = j) : m'.Holds B v := by
  have hsize := length_packChunk (B := B) (v := v) key j
  constructor
  · -- the new bytes were not counted before
    have hfilter : (Finset.range v.length).filter (fun x => m'.Has B (x / B)) =
        (Finset.range v.length).filter (fun x => m.Has B (x / B)) ∪
          Finset.Ico (j * B) (j * B + chunkSize B v j) := by
      ext x
      simp only [Finset.mem_filter, Finset.mem_union, Finset.mem_range, Finset.mem_Ico, hhas]
      have hend : j * B + chunkSize B v j ≤ v.length := by
        rw [chunkSize]
        omega
      by_cases hx : x < v.length
      · simp only [hx, true_and, div_eq_iff_mem hB hx]
      · omega
    have hdisj : Disjoint ((Finset.range v.length).filter fun x => m.Has B (x / B))
        (Finset.Ico (j * B) (j * B + chunkSize B v j)) := by
      rw [Finset.disjoint_left]
      intro x hx hxj
      obtain ⟨hxlt, hxhas⟩ := Finset.mem_filter.mp hx
      rw [(div_eq_iff_mem hB (Finset.mem_range.mp hxlt)).mpr (Finset.mem_Ico.mp hxj)] at hxhas
      exact hnew hxhas
    rw [hfilter, Finset.card_union_of_disjoint hdisj, ← h.bytesWritten, Nat.card_Ico,
      Nat.add_sub_cancel_left, ← hm', ← hsize]
    rfl
  · rw [← hm', ← h.length]
    exact length_overwrite _ _ _ _
  · intro x hx
    have hmessage : m'.message = overwrite m.message (j * B) (chunkSize B v j)
        fun i => (packChunk B key v j).value[i]? := by
      rw [← hm', ← hsize]
      rfl
    rw [hmessage]
    by_cases hxj : x / B = j
    · have hin := (div_eq_iff_mem hB hx).mp hxj
      rw [getElem?_overwrite_of_mem (h.length ▸ hx) hin, getElem?_packChunk key (by omega),
        if_pos ((hhas _).mpr (.inr hxj)), Nat.add_sub_cancel' hin.1]
    · rw [getElem?_overwrite_of_notMem (mt (div_eq_iff_mem hB hx).mpr hxj), h.content x hx]
      refine congrArg some (if_congr ?_ rfl rfl)
      rw [hhas, or_iff_left hxj]

/-- **A chunk comes**, for the first time or again. -/
theorem Holds.addChunk (h : m.Holds B v) (hB : 1 ≤ B) (hlen : v.length < 2 ^ 63) (key : Str)
    (hj : j * B < v.length) :
    ∃ m', m.addChunk (packChunk B key v j).offset.toInt (packChunk B key v j).value = .ok m' ∧
      m'.Holds B v ∧ ∀ i, m'.Has B i ↔ m.Has B i ∨ i = j := by
  rw [toInt_offset_packChunk key hj hlen]
  by_cases hmem : m.Has B j
  · refine ⟨m, if_pos hmem, h, fun i => ⟨.inl, ?_⟩⟩
    rintro (hi | rfl)
    · exact hi
    · exact hmem
  have hhas : ∀ i, (m.write ((j * B : ℕ) : ℤ) (packChunk B key v j).value).Has B i ↔
      m.Has B i ∨ i = j := by
    intro i
    rw [Has, ChunkedMessage.write, List.mem_cons, Nat.cast_inj, or_comm,
      Nat.mul_right_cancel_iff (by omega), Has]
  refine ⟨_, ?_, h.write hB hj hmem key rfl hhas, hhas⟩
  refine (if_neg hmem).trans (if_pos (.inr ⟨by omega, ?_⟩))
  rw [h.length, length_packChunk, chunkSize]
  omega

theorem Holds.isFullyFilled_iff (h : m.Holds B v) (hB : 1 ≤ B) (hv : B < v.length)
    (hlen : v.length < 2 ^ 63) : m.isFullyFilled ↔ ∀ j < numChunks B v.length, m.Has B j := by
  have hcard := Finset.card_filter_eq_iff (s := Finset.range v.length)
    (p := fun x => m.Has B (x / B))
  rw [Finset.card_range] at hcard
  rw [isFullyFilled, decide_eq_true_iff, h.bytesWritten, h.length, hcard]
  constructor
  · intro hall j hj
    have hx := hall (j * B) (Finset.mem_range.mpr ((lt_numChunks_iff hB hv hlen).mp hj))
    rwa [Nat.mul_div_cancel _ (by omega)] at hx
  · intro hall x hx
    refine hall (x / B) ((lt_numChunks_iff hB hv hlen).mpr ?_)
    exact (Nat.div_mul_le_self x B).trans_lt (Finset.mem_range.mp hx)

theorem Holds.message_eq (h : m.Holds B v) (hB : 1 ≤ B) (hv : B < v.length)
    (hlen : v.length < 2 ^ 63) (hall : ∀ j < numChunks B v.length, m.Has B j) :
    m.message = v.map some := by
  refine List.ext_getElem? fun x => ?_
  rw [List.getElem?_map]
  by_cases hx : x < v.length
  · have hdiv : x / B < numChunks B v.length := by
      rw [lt_numChunks_iff hB hv hlen]
      exact (Nat.div_mul_le_self x B).trans_lt hx
    rw [h.content x hx, if_pos (hall _ hdiv), List.getElem?_eq_getElem hx]
    rfl
  · rw [List.getElem?_eq_none (by rw [h.length]; omega), List.getElem?_eq_none (by omega)]
    rfl

end ChunkedMessage

/-! ### A chunk comes -/

variable {values : ChunkedValues} {k : Str} {m : ChunkedMessage}

theorem findOrEmplace_of_some (hsome : values k = some m) :
    findOrEmplace true values (packChunk B k v j) = .ok m := by
  have hkey : values (packChunk B k v j).key = some m := hsome
  rw [findOrEmplace, hkey]
  rfl

theorem findOrEmplace_of_none (hlen : v.length < 2 ^ 63) (hnone : values k = none) :
    ∃ m, findOrEmplace true values (packChunk B k v j) = .ok m ∧ m.Holds B v ∧ ∀ i, ¬m.Has B i := by
  obtain ⟨m, hmake, hholds, hno⟩ := ChunkedMessage.make_holds v B
  have hkey : values (packChunk B k v j).key = none := hnone
  refine ⟨m, ?_, hholds, hno⟩
  rw [findOrEmplace, hkey, toInt_totalLength_packChunk k j hlen, hmake]

theorem not_check_packChunk (hlen : v.length < 2 ^ 63) (hj : j * B < v.length) :
    ¬((packChunk B k v j).offset.toNat + (packChunk B k v j).value.length) % 2 ^ 64 >
      (packChunk B k v j).totalLength.toNat := by
  rw [toNat_offset_packChunk k hj hlen, length_packChunk, toNat_totalLength_packChunk k j hlen,
    chunkSize]
  omega

/-- **`OnChunkedMessage`** for a chunk of an honest sender, whatever came before. -/
theorem onChunkedMessage_packChunk (hB : 1 ≤ B) (hv : B < v.length) (hlen : v.length < 2 ^ 63)
    (hj : j < numChunks B v.length) (hfind : findOrEmplace true values (packChunk B k v j) = .ok m)
    (hm : m.Holds B v) :
    ∃ m' : ChunkedMessage, m'.Holds B v ∧ (∀ i, m'.Has B i ↔ m.Has B i ∨ i = j) ∧
      (m'.isFullyFilled ↔ ∀ i < numChunks B v.length, m'.Has B i) ∧
      onChunkedMessage true values (packChunk B k v j) =
        .ok (if m'.isFullyFilled then (Function.update values k none, some (v.map some))
          else (Function.update values k (some m'), none)) := by
  have hjlt := (lt_numChunks_iff hB hv hlen).mp hj
  obtain ⟨m', hadd, hm', hhas⟩ := hm.addChunk hB hlen k hjlt
  have hfull := hm'.isFullyFilled_iff hB hv hlen
  refine ⟨m', hm', hhas, hfull, ?_⟩
  rw [onChunkedMessage, if_neg (not_check_packChunk hlen hjlt), hfind, ok_bind, hadd, ok_bind]
  split
  · next h => rw [hm'.message_eq hB hv hlen (hfull.mp h)]; rfl
  · rfl

end Chunks

/-! ### A value in two chunks

What becomes of single chunks of a value, whoever else uses its key. -/

section TwoChunks

variable {B : ℕ} {v : List Byte} {values : ChunkedValues} {k : Str} {j : ℕ} {m : ChunkedMessage}

theorem numChunks_eq_two (hB : 1 ≤ B) (hv : B < v.length) (htwo : v.length ≤ 2 * B)
    (hlen : v.length < 2 ^ 63) : numChunks B v.length = 2 := by
  refine le_antisymm ?_ ?_
  · refine Nat.le_of_not_lt fun hlt => ?_
    have hbad := (lt_numChunks_iff hB hv hlen).mp hlt
    omega
  · exact (lt_numChunks_iff hB hv hlen).mpr (by omega)

variable (hB : 1 ≤ B) (hv : B < v.length) (htwo : v.length ≤ 2 * B) (hlen : v.length < 2 ^ 63)

include hB hv htwo hlen

theorem not_isFullyFilled_of_one (hholds : m.Holds B v) (hhas : ∀ i, m.Has B i ↔ i = j) :
    ¬m.isFullyFilled := by
  rw [hholds.isFullyFilled_iff hB hv hlen, numChunks_eq_two hB hv htwo hlen]
  intro hall
  have h0 := (hhas 0).mp (hall 0 (by decide))
  have h1 := (hhas 1).mp (hall 1 (by decide))
  omega

theorem onChunkedMessage_first (hnone : values k = none) (hj : j < 2) :
    ∃ m, onChunkedMessage true values (packChunk B k v j) =
        .ok (Function.update values k (some m), none) ∧
      m.Holds B v ∧ ∀ i, m.Has B i ↔ i = j := by
  obtain ⟨m, hfind, hholds, hno⟩ := findOrEmplace_of_none hlen hnone
  obtain ⟨m', hholds', hhas, -, heq⟩ := onChunkedMessage_packChunk hB hv hlen
    ((numChunks_eq_two hB hv htwo hlen).symm ▸ hj) hfind hholds
  have hhas' : ∀ i, m'.Has B i ↔ i = j := fun i => (hhas i).trans (or_iff_right (hno i))
  rw [if_neg (not_isFullyFilled_of_one hB hv htwo hlen hholds' hhas')] at heq
  exact ⟨m', heq, hholds', hhas'⟩

theorem onChunkedMessage_second (hsome : values k = some m) (hholds : m.Holds B v) {i : ℕ}
    (hhas : m.Has B i) (hi : i < 2) (hj : j < 2) (hij : i ≠ j) :
    onChunkedMessage true values (packChunk B k v j) =
      .ok (Function.update values k none, some (v.map some)) := by
  have htwo' := numChunks_eq_two hB hv htwo hlen
  obtain ⟨m', -, hhas', hfull, heq⟩ := onChunkedMessage_packChunk hB hv hlen (htwo'.symm ▸ hj)
    (findOrEmplace_of_some hsome) hholds
  rw [if_pos] at heq
  · exact heq
  rw [hfull]
  intro l hl
  rw [hhas']
  rcases (by omega : l = i ∨ l = j) with rfl | rfl
  · exact .inl hhas
  · exact .inr rfl

/-- A chunk of another value of the same length is dropped if its offset came before. -/
theorem onChunkedMessage_other (hsome : values k = some m) (hholds : m.Holds B v)
    (hhas : ∀ i, m.Has B i ↔ i = j) (hj : j < 2) {v' : List Byte} (hv' : v'.length = v.length) :
    onChunkedMessage true values (packChunk B k v' j) = .ok (values, none) := by
  have hjlt : j * B < v'.length := by
    have hle : j * B ≤ 1 * B := Nat.mul_le_mul_right B (by omega)
    omega
  have hlen' : v'.length < 2 ^ 63 := by omega
  have hadd : m.addChunk (packChunk B k v' j).offset.toInt (packChunk B k v' j).value = .ok m := by
    rw [toInt_offset_packChunk k hjlt hlen']
    exact if_pos ((hhas j).mpr rfl)
  have hself : Function.update values k (some m) = values := by
    rw [← hsome, Function.update_eq_self]
  rw [onChunkedMessage]
  rw [if_neg (not_check_packChunk hlen' hjlt), findOrEmplace_of_some hsome, ok_bind, hadd, ok_bind,
    if_neg (not_isFullyFilled_of_one hB hv htwo hlen hholds hhas)]
  exact congrArg (fun values => Except.ok (values, none)) hself

end TwoChunks

/-! ### The inbox -/

theorem cons_eraseIdx_perm {α : Type} {l : List α} {i : ℕ} {a : α} (h : l[i]? = some a) :
    (a :: l.eraseIdx i).Perm l := by
  obtain ⟨hi, rfl⟩ := List.getElem?_eq_some_iff.mp h
  exact List.getElem_cons_eraseIdx_perm hi

/-- The chunks, and the handler threads that hold a message on its way to `OnMessage`. -/
structure Inbox where
  /-- `chunked_values_`. -/
  chunkedValues : ChunkedValues
  handlers : List (Str × Memory)

namespace Inbox

/-- The inbox of a new channel. -/
def empty : Inbox := ⟨fun _ => none, []⟩

/-- `OnRequest`: the call of `OnMessage` for a request in one piece, and the first mutex for a
chunk. There is memory for the buffer of every message here. -/
def onRequest (b : Inbox) : Request → Except Exception (Inbox × Option (Str × Memory))
  | .mono key value => pure (b, some (key, value.map some))
  | .chunked r => do
    let (values, message) ← onChunkedMessage true b.chunkedValues r
    pure (⟨values, b.handlers ++ message.toList.map fun m => (r.key, m)⟩, none)

end Inbox

/-- What a peer has sent so far, as keys and values: no two messages in chunks have the same key,
and the length of a `Buffer` is an `int64_t`. -/
structure SentValid (B : ℕ) (sent : List (Str × List Byte)) : Prop where
  length_lt : ∀ t ∈ sent, t.2.length < 2 ^ 63
  unique : ∀ k v v', (k, v) ∈ sent → (k, v') ∈ sent → B < v.length → B < v'.length → v = v'

/-- **The inbox of an honest peer.** `delivered` are the requests that came so far, and `passed` the
calls of `OnMessage`. -/
structure Inbox.Inv (b : Inbox) (B : ℕ) (sent : List (Str × List Byte)) (delivered : List Request)
    (passed : List (Str × Memory)) : Prop where
  delivered_sent : ∀ r ∈ delivered, ∃ t ∈ sent, r ∈ sendImpl B t.1 t.2
  partials : ∀ k m, b.chunkedValues k = some m → ¬m.isFullyFilled ∧
    ∃ v, (k, v) ∈ sent ∧ B < v.length ∧ m.Holds B v ∧
      ∀ j < numChunks B v.length, m.Has B j → .chunked (packChunk B k v j) ∈ delivered
  calls : ∀ k w, (k, w) ∈ b.handlers ++ passed →
    ∃ v, (k, v) ∈ sent ∧ w = v.map some ∧ ∀ r ∈ sendImpl B k v, r ∈ delivered
  mono : ∀ k v, .mono k v ∈ delivered → (k, v.map some) ∈ passed
  chunked : ∀ k v, (k, v) ∈ sent → B < v.length →
    (k, v.map some) ∈ b.handlers ++ passed ∨
      ∀ j < numChunks B v.length, .chunked (packChunk B k v j) ∈ delivered →
        ∃ m, b.chunkedValues k = some m ∧ m.Has B j

namespace Inbox.Inv

variable {b : Inbox} {B : ℕ} {sent : List (Str × List Byte)} {delivered : List Request}
  {passed : List (Str × Memory)}

theorem empty (B : ℕ) : Inbox.empty.Inv B [] [] [] where
  delivered_sent _ h := absurd h List.not_mem_nil
  partials _ _ h := nomatch h
  calls _ _ h := absurd h List.not_mem_nil
  mono _ _ h := absurd h List.not_mem_nil
  chunked _ _ h := absurd h List.not_mem_nil

variable {v : List Byte} {r : Request}

theorem mem_sendImpl_of_lt {key : Str} (hv : B < v.length) :
    r ∈ sendImpl B key v ↔ ∃ j < numChunks B v.length, r = .chunked (packChunk B key v j) := by
  rw [sendImpl, if_pos hv, mem_sendChunked]

theorem mem_sendImpl_of_le {key : Str} (hv : v.length ≤ B) :
    r ∈ sendImpl B key v ↔ r = .mono key v := by
  rw [sendImpl, if_neg (by omega), List.mem_singleton]

variable {k : Str}

/-- **Completeness**: a message all of whose requests came is passed on, or in the hands of a
handler. -/
theorem mem_calls (h : b.Inv B sent delivered passed) (hsent : SentValid B sent) (hB : 1 ≤ B)
    (hkv : (k, v) ∈ sent) (hall : ∀ r ∈ sendImpl B k v, r ∈ delivered) :
    (k, v.map some) ∈ b.handlers ++ passed := by
  rcases Nat.lt_or_ge B v.length with hv | hv
  · rcases h.chunked k v hkv hv with hdone | hopen
    · exact hdone
    exfalso
    have hlen := hsent.length_lt _ hkv
    have hhas : ∀ j < numChunks B v.length, ∃ m, b.chunkedValues k = some m ∧ m.Has B j :=
      fun j hj => hopen j hj (hall _ ((mem_sendImpl_of_lt hv).mpr ⟨j, hj, rfl⟩))
    have hzero : 0 < numChunks B v.length := (lt_numChunks_iff hB hv hlen).mpr (by omega)
    obtain ⟨m, hm, -⟩ := hhas 0 hzero
    obtain ⟨hnot, v', hkv', hv', hholds, -⟩ := h.partials k m hm
    obtain rfl := hsent.unique k v v' hkv hkv' hv hv'
    refine hnot ((hholds.isFullyFilled_iff hB hv hlen).mpr fun j hj => ?_)
    obtain ⟨m', hm', hj'⟩ := hhas j hj
    rw [hm] at hm'
    exact Option.some_inj.mp hm' ▸ hj'
  · refine List.mem_append_right _ (h.mono k v (hall _ ?_))
    exact (mem_sendImpl_of_le hv).mpr rfl

theorem mono_sent (h : b.Inv B sent delivered passed) {sent' : List (Str × List Byte)}
    (hsub : ∀ t ∈ sent, t ∈ sent') (hsent' : SentValid B sent') :
    b.Inv B sent' delivered passed where
  delivered_sent r hr := by
    obtain ⟨t, ht, hrt⟩ := h.delivered_sent r hr
    exact ⟨t, hsub t ht, hrt⟩
  partials k m hm := by
    obtain ⟨hnot, v, hkv, hrest⟩ := h.partials k m hm
    exact ⟨hnot, v, hsub _ hkv, hrest⟩
  calls k w hkw := by
    obtain ⟨v, hkv, hrest⟩ := h.calls k w hkw
    exact ⟨v, hsub _ hkv, hrest⟩
  mono := h.mono
  chunked k v hkv hv := by
    by_cases hold : (k, v) ∈ sent
    · exact h.chunked k v hold hv
    · -- no chunk of a message comes before it was sent
      refine .inr fun j hj hdel => absurd ?_ hold
      obtain ⟨⟨k', v'⟩, ht, hr⟩ := h.delivered_sent _ hdel
      rcases Nat.lt_or_ge B v'.length with hv' | hv'
      · obtain ⟨j', -, heq⟩ := (mem_sendImpl_of_lt hv').mp hr
        have hkey : k = k' := congrArg ChunkRequest.key (Request.chunked.inj heq)
        subst hkey
        rwa [hsent'.unique k v v' hkv (hsub _ ht) hv hv']
      · have heq := (mem_sendImpl_of_le hv').mp hr
        nomatch heq

theorem onRequest_mono (h : b.Inv B sent delivered passed) (hkv : (k, v) ∈ sent)
    (hv : v.length ≤ B) : b.Inv B sent (.mono k v :: delivered) ((k, v.map some) :: passed) := by
  have hr : .mono k v ∈ sendImpl B k v := (mem_sendImpl_of_le hv).mpr rfl
  have hmem : ∀ c, c ∈ b.handlers ++ (k, v.map some) :: passed ↔
      c = (k, v.map some) ∨ c ∈ b.handlers ++ passed := by
    intro c
    rw [List.mem_append, List.mem_cons, List.mem_append]
    tauto
  constructor
  · exact List.forall_mem_cons.mpr ⟨⟨_, hkv, hr⟩, h.delivered_sent⟩
  · intro k' m hm
    obtain ⟨hnot, v', hkv', hv', hholds, hhas⟩ := h.partials k' m hm
    exact ⟨hnot, v', hkv', hv', hholds, fun j hj hj' => List.mem_cons_of_mem _ (hhas j hj hj')⟩
  · intro k' w hkw
    rcases (hmem _).mp hkw with heq | hold
    · obtain ⟨rfl, rfl⟩ := Prod.mk.inj heq
      refine ⟨v, hkv, rfl, fun r hr' => ?_⟩
      rw [(mem_sendImpl_of_le hv).mp hr']
      exact List.mem_cons_self
    · obtain ⟨v', hkv', rfl, hall⟩ := h.calls k' w hold
      exact ⟨v', hkv', rfl, fun r hr' => List.mem_cons_of_mem _ (hall r hr')⟩
  · intro k' v' hdel
    rcases List.mem_cons.mp hdel with heq | hold
    · obtain ⟨rfl, rfl⟩ := Request.mono.inj heq
      exact List.mem_cons_self
    · exact List.mem_cons_of_mem _ (h.mono k' v' hold)
  · intro k' v' hkv' hv'
    rcases h.chunked k' v' hkv' hv' with hdone | hopen
    · exact .inl ((hmem _).mpr (.inr hdone))
    · refine .inr fun j hj hdel => hopen j hj ?_
      rcases List.mem_cons.mp hdel with heq | hold
      · nomatch heq
      · exact hold

theorem findOrEmplace (h : b.Inv B sent delivered passed) (hsent : SentValid B sent)
    (hkv : (k, v) ∈ sent) (hv : B < v.length) (j : ℕ) :
    ∃ m, findOrEmplace true b.chunkedValues (packChunk B k v j) = .ok m ∧ m.Holds B v ∧
      (∀ i < numChunks B v.length, m.Has B i → .chunked (packChunk B k v i) ∈ delivered) ∧
      ∀ m', b.chunkedValues k = some m' → m' = m := by
  cases hm : b.chunkedValues k with
  | some m =>
    obtain ⟨-, v', hkv', hv', hholds, hhas⟩ := h.partials k m hm
    obtain rfl := hsent.unique k v v' hkv hkv' hv hv'
    exact ⟨m, findOrEmplace_of_some hm, hholds, hhas, fun m' hm' => (Option.some_inj.mp hm').symm⟩
  | none =>
    obtain ⟨m, hfind, hholds, hno⟩ := findOrEmplace_of_none (hsent.length_lt _ hkv) hm
    exact ⟨m, hfind, hholds, fun i _ hi => absurd hi (hno i), fun m' hm' => nomatch hm'⟩

variable {j : ℕ}

theorem packChunk_inj (hB : 1 ≤ B) (hlen : v.length < 2 ^ 63) {i : ℕ} (hi : i * B < v.length)
    (hj : j * B < v.length) (heq : packChunk B k v i = packChunk B k v j) : i = j := by
  have hoff : (packChunk B k v i).offset.toNat = (packChunk B k v j).offset.toNat := by rw [heq]
  rw [toNat_offset_packChunk k hi hlen, toNat_offset_packChunk k hj hlen] at hoff
  exact Nat.eq_of_mul_eq_mul_right (by omega) hoff

/-- The entry of one key changes and a handler may take a message of this key. -/
theorem update (h : b.Inv B sent delivered passed) (hsent : SentValid B sent) (hkv : (k, v) ∈ sent)
    (hv : B < v.length) (hj : j < numChunks B v.length) {entry : Option ChunkedMessage}
    {message : Option Memory}
    (hentry : ∀ m ∈ entry, ¬m.isFullyFilled ∧ m.Holds B v ∧
      ∀ i < numChunks B v.length, m.Has B i →
        .chunked (packChunk B k v i) ∈ .chunked (packChunk B k v j) :: delivered)
    (hmessage : ∀ w ∈ message, w = v.map some ∧
      ∀ i < numChunks B v.length,
        .chunked (packChunk B k v i) ∈ .chunked (packChunk B k v j) :: delivered)
    (hprogress : message.isSome ∨ (k, v.map some) ∈ b.handlers ++ passed ∨
      ∀ i < numChunks B v.length,
        .chunked (packChunk B k v i) ∈ .chunked (packChunk B k v j) :: delivered →
          ∃ m, entry = some m ∧ m.Has B i) :
    (⟨Function.update b.chunkedValues k entry,
      b.handlers ++ message.toList.map fun w => (k, w)⟩ : Inbox).Inv B sent
        (.chunked (packChunk B k v j) :: delivered) passed := by
  have hmem : ∀ c, c ∈ (b.handlers ++ message.toList.map fun w => (k, w)) ++ passed ↔
      (∃ w ∈ message, c = (k, w)) ∨ c ∈ b.handlers ++ passed := by
    intro c
    simp only [List.mem_append, List.mem_map, Option.mem_toList, Option.mem_def, eq_comm]
    rw [or_assoc, or_left_comm]
  constructor
  · refine List.forall_mem_cons.mpr ⟨⟨_, hkv, ?_⟩, h.delivered_sent⟩
    exact (mem_sendImpl_of_lt hv).mpr ⟨j, hj, rfl⟩
  · intro k' m hm
    dsimp only at hm
    by_cases hk : k' = k
    · subst hk
      rw [Function.update_self] at hm
      obtain ⟨hnot, hholds, hhas⟩ := hentry m hm
      exact ⟨hnot, v, hkv, hv, hholds, hhas⟩
    · rw [Function.update_of_ne hk] at hm
      obtain ⟨hnot, v', hkv', hv', hholds, hhas⟩ := h.partials k' m hm
      exact ⟨hnot, v', hkv', hv', hholds, fun i hi hi' => List.mem_cons_of_mem _ (hhas i hi hi')⟩
  · intro k' w hkw
    rcases (hmem _).mp hkw with ⟨w', hw', heq⟩ | hold
    · obtain ⟨rfl, rfl⟩ := Prod.mk.inj heq
      obtain ⟨rfl, hall⟩ := hmessage w hw'
      refine ⟨v, hkv, rfl, fun r hr => ?_⟩
      obtain ⟨i, hi, rfl⟩ := (mem_sendImpl_of_lt hv).mp hr
      exact hall i hi
    · obtain ⟨v', hkv', rfl, hall⟩ := h.calls k' w hold
      exact ⟨v', hkv', rfl, fun r hr => List.mem_cons_of_mem _ (hall r hr)⟩
  · intro k' v' hdel
    rcases List.mem_cons.mp hdel with heq | hold
    · nomatch heq
    · exact h.mono k' v' hold
  · intro k' v' hkv' hv'
    dsimp only
    by_cases hk : k' = k
    · subst hk
      obtain rfl := hsent.unique k' v v' hkv hkv' hv hv'
      rcases hprogress with hsome | hdone | hopen
      · obtain ⟨w, hw⟩ := Option.isSome_iff_exists.mp hsome
        refine .inl ((hmem _).mpr (.inl ⟨w, hw, ?_⟩))
        rw [(hmessage w hw).1]
      · exact .inl ((hmem _).mpr (.inr hdone))
      · exact .inr fun i hi hdel => by rw [Function.update_self]; exact hopen i hi hdel
    · rcases h.chunked k' v' hkv' hv' with hdone | hopen
      · exact .inl ((hmem _).mpr (.inr hdone))
      · refine .inr fun i hi hdel => ?_
        rw [Function.update_of_ne hk]
        refine hopen i hi ?_
        rcases List.mem_cons.mp hdel with heq | hold
        · exact absurd (congrArg ChunkRequest.key (Request.chunked.inj heq)) hk
        · exact hold

/-- **A chunk comes.** -/
theorem onRequest_chunked (h : b.Inv B sent delivered passed) (hsent : SentValid B sent)
    (hB : 1 ≤ B) (hkv : (k, v) ∈ sent) (hv : B < v.length) (hj : j < numChunks B v.length) :
    ∃ b', b.onRequest (.chunked (packChunk B k v j)) = .ok (b', none) ∧
      b'.Inv B sent (.chunked (packChunk B k v j) :: delivered) passed := by
  have hlen : v.length < 2 ^ 63 := hsent.length_lt _ hkv
  obtain ⟨m, hfind, hm, hdel, hold⟩ := h.findOrEmplace hsent hkv hv j
  obtain ⟨m', hm', hhas, hiff, heq⟩ := onChunkedMessage_packChunk hB hv hlen hj hfind hm
  have hdel' : ∀ i < numChunks B v.length, m'.Has B i →
      .chunked (packChunk B k v i) ∈ .chunked (packChunk B k v j) :: delivered := by
    intro i hi hi'
    rcases (hhas i).mp hi' with hi' | rfl
    · exact List.mem_cons_of_mem _ (hdel i hi hi')
    · exact List.mem_cons_self
  rw [Inbox.onRequest, heq]
  by_cases hfull : m'.isFullyFilled
  · rw [if_pos hfull]
    refine ⟨_, rfl, h.update hsent hkv hv hj (by simp) ?_ (.inl rfl)⟩
    intro w hw
    exact ⟨(Option.mem_some.mp hw).symm, fun i hi => hdel' i hi (hiff.mp hfull i hi)⟩
  · rw [if_neg hfull]
    refine ⟨_, rfl, h.update hsent hkv hv hj ?_ (by simp) (.inr ?_)⟩
    · intro m₀ hm₀
      obtain rfl := Option.mem_some.mp hm₀
      exact ⟨hfull, hm', hdel'⟩
    · refine (h.chunked k v hkv hv).imp_right fun hopen i hi hi' => ⟨m', rfl, (hhas i).mpr ?_⟩
      rcases List.mem_cons.mp hi' with heq | hi'
      · have hilt := (lt_numChunks_iff hB hv hlen).mp hi
        have hjlt := (lt_numChunks_iff hB hv hlen).mp hj
        exact .inr (packChunk_inj hB hlen hilt hjlt (Request.chunked.inj heq))
      · obtain ⟨m₁, hm₁, hi''⟩ := hopen i hi hi'
        exact .inl (hold m₁ hm₁ ▸ hi'')

/-- **A request comes**, for the first time or again. It does not throw. -/
theorem onRequest (h : b.Inv B sent delivered passed) (hsent : SentValid B sent) (hB : 1 ≤ B)
    (hkv : (k, v) ∈ sent) (hr : r ∈ sendImpl B k v) :
    ∃ b' call, b.onRequest r = .ok (b', call) ∧
      b'.Inv B sent (r :: delivered) (call.toList ++ passed) := by
  rcases Nat.lt_or_ge B v.length with hv | hv
  · obtain ⟨j, hj, rfl⟩ := (mem_sendImpl_of_lt hv).mp hr
    obtain ⟨b', hb', hinv⟩ := h.onRequest_chunked hsent hB hkv hv hj
    exact ⟨b', none, hb', hinv⟩
  · obtain rfl := (mem_sendImpl_of_le hv).mp hr
    exact ⟨b, some (k, v.map some), rfl, h.onRequest_mono hkv hv⟩

/-- **A handler passes its message on.** -/
theorem passOn (h : b.Inv B sent delivered passed) {i : ℕ} {call : Str × Memory}
    (hi : b.handlers[i]? = some call) :
    (⟨b.chunkedValues, b.handlers.eraseIdx i⟩ : Inbox).Inv B sent delivered (call :: passed) := by
  have hperm : ∀ c, c ∈ b.handlers.eraseIdx i ++ call :: passed ↔ c ∈ b.handlers ++ passed := by
    intro c
    have hmem := (cons_eraseIdx_perm hi).mem_iff (a := c)
    rw [List.mem_append, List.mem_cons, List.mem_append, ← hmem, List.mem_cons]
    tauto
  exact
    { delivered_sent := h.delivered_sent
      partials := h.partials
      calls := fun k w hkw => h.calls k w ((hperm _).mp hkw)
      mono := fun k v hkv => List.mem_cons_of_mem _ (h.mono k v hkv)
      chunked := fun k v hkv hv => (h.chunked k v hkv hv).imp_left (hperm _).mpr }

end Inbox.Inv

end Yacl.Link
