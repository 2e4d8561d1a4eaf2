import Yacl.Base.Span
import Yacl.Lib.Intervals
import Yacl.Link.ChannelKey

/-!
# Reassembly of chunks

The model of `ChunkedMessage` and of the part of `OnChunkedMessage` that runs under
`chunked_values_mutex_`, from `yacl/link/transport/channel.cc`. A buffer is the list of its bytes,
where a byte that was allocated and never written is `none`. A write outside of the buffer is
undefined behaviour. Whether there is memory for a new buffer is up to the machine at the moment of
the request; a request whose buffer cannot be allocated throws and leaves no entry behind.

The first chunk of a key allocates the buffer; every later one is checked against the total length
that it brings along itself, and the bytes are counted and not tracked. So a sequence of chunks is
handled safely if it is **consistent** (`chunkReassembly_safe`): the chunks of a message agree on
its total length, no sum of an offset and a size wraps around, and in a message whose count is full
the chunks do not overlap.
-/

open Bytes Intervals

namespace Yacl.Link

/-- The memory of a `Buffer`. -/
abbrev Memory := List (Option Byte)

/-- A chunk request, as `UnpackChunckRequest` returns it. -/
structure ChunkRequest where
  key : Str
  value : List Byte
  offset : BitVec 64
  totalLength : BitVec 64
deriving DecidableEq

/-- `ChunkedMessage`. The byte count is an `int64_t` in the source; no message has so many chunks
that it overflows. -/
structure ChunkedMessage where
  /-- `received_`. -/
  received : List ℤ
  /-- `bytes_written_`. -/
  bytesWritten : ℕ
  /-- `message_`. -/
  message : Memory

namespace ChunkedMessage

/-- The constructor, with the check and the allocation of the constructor of `Buffer`: without
`memory` for so many bytes `new` throws. -/
def make (memory : Bool) (messageLength : ℤ) : Except Exception ChunkedMessage := do
  enforce (messageLength ≥ 0) "size >= 0" ""
  if memory then pure ⟨[], 0, List.replicate messageLength.toNat none⟩ else throw .badAlloc

/-- The message after the `memcpy` of a chunk with a new offset. -/
def write (m : ChunkedMessage) (offset : ℤ) (data : List Byte) : ChunkedMessage where
  received := offset :: m.received
  bytesWritten := m.bytesWritten + data.length
  message := overwrite m.message offset.toNat data.length fun i => data[i]?

/-- `AddChunk`. -/
def addChunk (m : ChunkedMessage) (offset : ℤ) (data : List Byte) :
    Except Exception ChunkedMessage :=
  if offset ∈ m.received then pure m
  else if data = [] ∨ 0 ≤ offset ∧ offset + data.length ≤ m.message.length then
    pure (m.write offset data)
  else throw .undefinedBehaviour

/-- `IsFullyFilled`. -/
def isFullyFilled (m : ChunkedMessage) : Bool := m.bytesWritten = m.message.length

end ChunkedMessage

/-- `chunked_values_`. -/
abbrev ChunkedValues := Str → Option ChunkedMessage

/-- The entry of a key; the first chunk makes one. -/
def findOrEmplace (memory : Bool) (values : ChunkedValues) (r : ChunkRequest) :
    Except Exception ChunkedMessage :=
  match values r.key with
  | some data => pure data
  | none => ChunkedMessage.make memory r.totalLength.toInt

/-- The critical section of `OnChunkedMessage`; a message that is full is removed and returned. An
exception leaves the map as it was. -/
def onChunkedMessage (memory : Bool) (values : ChunkedValues) (r : ChunkRequest) :
    Except Exception (ChunkedValues × Option Memory) := do
  let size := r.value.length
  let offset := r.offset.toNat
  let total := r.totalLength.toNat
  if (offset + size) % 2 ^ 64 > total then
    throw (.logicError
      s!"invalid chunk info, offset={offset}, chun size = {size}, total_length={total}")
  let data ← findOrEmplace memory values r
  let data ← data.addChunk r.offset.toInt r.value
  if data.isFullyFilled then pure (Function.update values r.key none, some data.message)
  else pure (Function.update values r.key (some data), none)

/-- The requests in the order in which they take the mutex, each with whether there is memory for a
new buffer at that moment, and the messages that are passed on. The exceptions go back to the peer,
undefined behaviour ends the run. -/
def reassemble (values : ChunkedValues) :
    List (Bool × ChunkRequest) → Except Exception (List (Str × Memory))
  | [] => pure []
  | (memory, r) :: rs => match onChunkedMessage memory values r with
    | .ok (values', message) => do
      let rest ← reassemble values' rs
      pure (message.toList.map (fun m => (r.key, m)) ++ rest)
    | .error .undefinedBehaviour => throw .undefinedBehaviour
    | .error _ => reassemble values rs

/-- **Safe reassembly**: no write leaves its buffer, and a message that is passed on has been
written completely. -/
def ReassemblySafe (values : ChunkedValues) (rs : List (Bool × ChunkRequest)) : Prop :=
  ∃ out, reassemble values rs = .ok out ∧ ∀ m ∈ out, none ∉ m.2

/-! ### The chunks of a message

The bookkeeping without the memory: the length of the buffer and the intervals that were written,
one for each offset. -/

/-- The chunks of a message that is not complete. -/
structure Epoch where
  length : ℕ
  chunks : List (ℤ × ℕ)

namespace Epoch

/-- Only the first chunk of an offset counts. -/
def record (e : Epoch) (c : ℤ × ℕ) : Epoch :=
  if c.1 ∈ e.chunks.map Prod.fst then e else { e with chunks := c :: e.chunks }

/-- The lengths of the chunks add up to the length of the buffer. -/
def Complete (e : Epoch) : Prop := total e.chunks = e.length

instance (e : Epoch) : Decidable e.Complete := inferInstanceAs (Decidable (_ = _))

/-- No two chunks share a byte. -/
def Separate (e : Epoch) : Prop :=
  e.chunks.Pairwise fun c c' => Disjoint (elems c) (elems c')

/-- A request **agrees** with the message it belongs to: it repeats an offset, or it brings the
total length of the message along and the sum of its offset and its size does not wrap around. -/
def Agrees (e : Epoch) (r : ChunkRequest) : Prop :=
  r.offset.toInt ∈ e.chunks.map Prod.fst ∨
    r.totalLength.toInt = e.length ∧ r.offset.toNat + r.value.length < 2 ^ 64

end Epoch

namespace ChunkRequest

/-- The interval of a request. -/
def chunk (r : ChunkRequest) : ℤ × ℕ := (r.offset.toInt, r.value.length)

/-- The message that a request belongs to, or nothing if it is rejected: the open message of its
key, or a new one if there is memory for it. -/
def epoch (memory : Bool) (r : ChunkRequest) (epochs : Str → Option Epoch) : Option Epoch :=
  if (r.offset.toNat + r.value.length) % 2 ^ 64 > r.totalLength.toNat then none
  else (epochs r.key).or
    (if memory ∧ r.totalLength.toInt ≥ 0 then some ⟨r.totalLength.toInt.toNat, []⟩ else none)

end ChunkRequest

/-- **Consistent requests**: every request that is not rejected agrees with the message it belongs
to, and the chunks of a message that is complete are disjoint. -/
def Consistent (epochs : Str → Option Epoch) : List (Bool × ChunkRequest) → Prop
  | [] => True
  | (memory, r) :: rs => match r.epoch memory epochs with
    | none => Consistent epochs rs
    | some e => e.Agrees r ∧
      if (e.record r.chunk).Complete then
        (e.record r.chunk).Separate ∧ Consistent (Function.update epochs r.key none) rs
      else Consistent (Function.update epochs r.key (some (e.record r.chunk))) rs

/-! ### The memory and the chunks -/

/-- **A reassembled message and its chunks.** A byte is written exactly if some chunk has it. -/
structure ChunkedMessage.Tracks (m : ChunkedMessage) (e : Epoch) : Prop where
  length_eq : m.message.length = e.length
  received_eq : m.received = e.chunks.map Prod.fst
  bytesWritten_eq : m.bytesWritten = total e.chunks
  written : ∀ x < e.length, m.message[x]? ≠ some none ↔ ∃ c ∈ e.chunks, (x : ℤ) ∈ elems c
  fits : ∀ c ∈ e.chunks, elems c ⊆ Finset.Ico 0 (e.length : ℤ)

theorem ChunkedMessage.make_tracks {n : ℤ} (h : 0 ≤ n) :
    ∃ m, make true n = .ok m ∧ m.Tracks ⟨n.toNat, []⟩ := by
  refine ⟨⟨[], 0, List.replicate n.toNat none⟩, ?_, ?_⟩
  · rw [make, enforce_bind h]
    rfl
  refine ⟨List.length_replicate, rfl, rfl, fun x hx => ?_, fun c hc => ?_⟩
  · rw [List.getElem?_replicate_of_lt hx]
    simp
  · exact absurd hc List.not_mem_nil

variable {offset : ℤ}

theorem elems_subset_Ico_iff {size n : ℕ} :
    elems (offset, size) ⊆ Finset.Ico 0 (n : ℤ) ↔
      size = 0 ∨ 0 ≤ offset ∧ offset + size ≤ n := by
  constructor
  · intro h
    by_cases hsize : size = 0
    · exact .inl hsize
    right
    have hfirst := Finset.mem_Ico.mp (h (mem_elems.mpr
      (show offset ≤ offset ∧ offset < offset + size by omega)))
    have hlast := Finset.mem_Ico.mp (h (mem_elems.mpr
      (show offset ≤ offset + size - 1 ∧ offset + size - 1 < offset + size by omega)))
    omega
  · intro h x hx
    have hx' := mem_elems.mp hx
    rw [Finset.mem_Ico]
    omega

variable {m : ChunkedMessage} {e : Epoch} {data : List Byte}

/-- The bytes of a new chunk inside of the buffer are written, and no others. -/
theorem ChunkedMessage.Tracks.write (h : m.Tracks e)
    (hsub : elems (offset, data.length) ⊆ Finset.Ico 0 (e.length : ℤ)) :
    (m.write offset data).Tracks { e with chunks := (offset, data.length) :: e.chunks } := by
  constructor
  · exact (length_overwrite _ _ _ _).trans h.length_eq
  · exact congrArg (offset :: ·) h.received_eq
  · dsimp only [ChunkedMessage.write]
    rw [h.bytesWritten_eq, total_cons, Nat.add_comm]
  · intro x hx
    dsimp only [ChunkedMessage.write] at hx ⊢
    simp only [List.mem_cons, exists_eq_or_imp]
    rw [← h.written x hx]
    by_cases hxc : (x : ℤ) ∈ elems (offset, data.length)
    · have hbounds := mem_elems.mp hxc
      have hlt : x - offset.toNat < data.length := by omega
      rw [getElem?_overwrite_of_mem (h.length_eq ▸ hx) (by omega), List.getElem?_eq_getElem hlt]
      simp [hbounds]
    · rw [getElem?_overwrite_of_notMem]
      · simp only [hxc, false_or]
      · intro hbounds
        have hpos := elems_subset_Ico_iff.mp hsub
        refine hxc (mem_elems.mpr ?_)
        omega
  · exact List.forall_mem_cons.mpr ⟨hsub, h.fits⟩

/-- A request that agrees with its message and passes the check lies in the buffer. -/
theorem Epoch.Agrees.subset {r : ChunkRequest} (h : e.Agrees r)
    (hvalid : (r.offset.toNat + r.value.length) % 2 ^ 64 ≤ r.totalLength.toNat)
    (hnew : r.offset.toInt ∉ e.chunks.map Prod.fst) :
    elems r.chunk ⊆ Finset.Ico 0 (e.length : ℤ) := by
  obtain ⟨htotal, hwrap⟩ := h.resolve_left hnew
  rw [Nat.mod_eq_of_lt hwrap] at hvalid
  have hlength := BitVec.toInt_eq_toNat_cond r.totalLength
  have hoffset := BitVec.toInt_eq_toNat_cond r.offset
  have hlt := r.totalLength.isLt
  refine elems_subset_Ico_iff.mpr (.inr ?_)
  split at hlength <;> split at hoffset <;> omega

/-- **A chunk of a request that agrees** is written or skipped, and recorded. -/
theorem ChunkedMessage.Tracks.addChunk {r : ChunkRequest} (h : m.Tracks e) (hagrees : e.Agrees r)
    (hvalid : (r.offset.toNat + r.value.length) % 2 ^ 64 ≤ r.totalLength.toNat) :
    ∃ m', m.addChunk r.offset.toInt r.value = .ok m' ∧ m'.Tracks (e.record r.chunk) := by
  rw [ChunkedMessage.addChunk, h.received_eq, h.length_eq, Epoch.record]
  by_cases hmem : r.offset.toInt ∈ e.chunks.map Prod.fst
  · rw [if_pos hmem, if_pos (show r.chunk.1 ∈ _ from hmem)]
    exact ⟨m, rfl, h⟩
  · have hsub := hagrees.subset hvalid hmem
    rw [if_neg hmem, if_neg (show r.chunk.1 ∉ _ from hmem), if_pos]
    · exact ⟨_, rfl, h.write hsub⟩
    · rw [← List.length_eq_zero_iff]
      exact elems_subset_Ico_iff.mp hsub

theorem ChunkedMessage.Tracks.isFullyFilled_iff (h : m.Tracks e) :
    m.isFullyFilled ↔ e.Complete := by
  rw [ChunkedMessage.isFullyFilled, decide_eq_true_iff, h.bytesWritten_eq, h.length_eq]
  rfl

/-- **A full message** has been written completely if no two of its chunks share a byte. -/
theorem ChunkedMessage.Tracks.none_notMem (h : m.Tracks e) (hfull : e.Complete)
    (hseparate : e.Separate) : none ∉ m.message := by
  rw [List.mem_iff_getElem?]
  rintro ⟨y, hy⟩
  have hlt : y < e.length := h.length_eq ▸ (List.getElem?_eq_some_iff.mp hy).1
  have hcovered := fills_of_pairwise_disjoint h.fits hfull hseparate
    (Finset.mem_Ico.mpr (show (0 : ℤ) ≤ y ∧ (y : ℤ) < e.length by omega))
  exact (h.written y hlt).mpr hcovered hy

/-- The maps of one moment. -/
def ChunkedValues.Tracks (values : ChunkedValues) (epochs : Str → Option Epoch) : Prop :=
  ∀ k, Option.Rel ChunkedMessage.Tracks (values k) (epochs k)

variable {values : ChunkedValues} {epochs : Str → Option Epoch}

theorem ChunkedValues.Tracks.update (h : values.Tracks epochs) {m : Option ChunkedMessage}
    {e : Option Epoch} (hm : Option.Rel ChunkedMessage.Tracks m e) (k : Str) :
    ChunkedValues.Tracks (Function.update values k m) (Function.update epochs k e) := by
  intro k'
  by_cases hk : k' = k
  · subst hk
    rw [Function.update_self, Function.update_self]
    exact hm
  · rw [Function.update_of_ne hk, Function.update_of_ne hk]
    exact h k'

theorem ChunkedValues.Tracks.findOrEmplace (h : values.Tracks epochs) (memory : Bool)
    (r : ChunkRequest) :
    match (epochs r.key).or (if memory ∧ r.totalLength.toInt ≥ 0 then
        some ⟨r.totalLength.toInt.toNat, []⟩ else none) with
    | some e => ∃ m, findOrEmplace memory values r = .ok m ∧ m.Tracks e
    | none => ∃ err, findOrEmplace memory values r = .error err ∧ err ≠ .undefinedBehaviour := by
  have hk := h r.key
  rw [Link.findOrEmplace]
  generalize values r.key = entry at hk ⊢
  generalize epochs r.key = e at hk ⊢
  cases hk with
  | some hm => exact ⟨_, rfl, hm⟩
  | none =>
    by_cases hpos : r.totalLength.toInt ≥ 0
    · cases memory with
      | true =>
        rw [if_pos ⟨rfl, hpos⟩]
        exact ChunkedMessage.make_tracks hpos
      | false => exact ⟨.badAlloc, by rw [ChunkedMessage.make, enforce_bind hpos]; rfl, by simp⟩
    · rw [if_neg fun h => hpos h.2]
      exact ⟨_, by rw [ChunkedMessage.make, enforce_of_neg hpos]; rfl, by simp⟩

variable {memory : Bool} {r : ChunkRequest}

/-- **A rejected request** throws and changes nothing. -/
theorem onChunkedMessage_of_epoch_eq_none (h : values.Tracks epochs)
    (hr : r.epoch memory epochs = none) :
    ∃ err, onChunkedMessage memory values r = .error err ∧ err ≠ .undefinedBehaviour := by
  rw [onChunkedMessage]
  rw [ChunkRequest.epoch] at hr
  by_cases hcheck : (r.offset.toNat + r.value.length) % 2 ^ 64 > r.totalLength.toNat
  · rw [if_pos hcheck]
    exact ⟨_, rfl, by simp⟩
  · have hopen := h.findOrEmplace memory r
    rw [if_neg hcheck] at hr ⊢
    rw [hr] at hopen
    obtain ⟨err, herr, hub⟩ := hopen
    rw [herr]
    exact ⟨err, rfl, hub⟩

/-- **An accepted request** that agrees with its message adds its chunk to it. -/
theorem onChunkedMessage_of_epoch_eq_some (h : values.Tracks epochs)
    (hr : r.epoch memory epochs = some e) (hagrees : e.Agrees r) :
    ∃ m : ChunkedMessage, m.Tracks (e.record r.chunk) ∧
      onChunkedMessage memory values r = .ok
        (if m.isFullyFilled then (Function.update values r.key none, some m.message)
        else (Function.update values r.key (some m), none)) := by
  rw [onChunkedMessage]
  rw [ChunkRequest.epoch] at hr
  by_cases hcheck : (r.offset.toNat + r.value.length) % 2 ^ 64 > r.totalLength.toNat
  · rw [if_pos hcheck] at hr
    nomatch hr
  · have hopen := h.findOrEmplace memory r
    rw [if_neg hcheck] at hr ⊢
    rw [hr] at hopen
    obtain ⟨m, hfind, hm⟩ := hopen
    obtain ⟨m', hadd, hm'⟩ := hm.addChunk hagrees (not_lt.mp hcheck)
    refine ⟨m', hm', ?_⟩
    rw [hfind, ok_bind, hadd, ok_bind]
    split <;> rfl

theorem reassemblySafe_cons_of_error {err : Exception}
    (h : onChunkedMessage memory values r = .error err) (hub : err ≠ .undefinedBehaviour)
    {rs : List (Bool × ChunkRequest)} (hsafe : ReassemblySafe values rs) :
    ReassemblySafe values ((memory, r) :: rs) := by
  rw [ReassemblySafe, reassemble, h]
  split
  · next heq => nomatch heq
  · next heq => exact absurd (Except.error.inj heq) hub
  · exact hsafe

theorem reassemblySafe_cons_of_ok {values' : ChunkedValues} {message : Option Memory}
    (h : onChunkedMessage memory values r = .ok (values', message))
    (hmessage : ∀ m ∈ message, none ∉ m) {rs : List (Bool × ChunkRequest)}
    (hsafe : ReassemblySafe values' rs) : ReassemblySafe values ((memory, r) :: rs) := by
  obtain ⟨rest, hrest, hwritten⟩ := hsafe
  have hout : reassemble values ((memory, r) :: rs) =
      .ok (message.toList.map (fun m => (r.key, m)) ++ rest) := by
    simp only [reassemble, h, hrest, ok_bind]
    rfl
  refine ⟨_, hout, fun m hm => ?_⟩
  rcases List.mem_append.mp hm with hm | hm
  · obtain ⟨m', hm', rfl⟩ := List.mem_map.mp hm
    exact hmessage m' (Option.mem_toList.mp hm')
  · exact hwritten m hm

/-- **Safe if consistent**, from any moment of a run on; by induction on the requests, with the
memory and the chunks side by side. -/
theorem ChunkedValues.Tracks.reassemblySafe (rs : List (Bool × ChunkRequest)) :
    ∀ {values : ChunkedValues} {epochs : Str → Option Epoch}, values.Tracks epochs →
      Consistent epochs rs → ReassemblySafe values rs := by
  induction rs with
  | nil => exact fun _ _ => ⟨[], rfl, by simp⟩
  | cons x rs ih =>
    intro values epochs h hc
    obtain ⟨memory, r⟩ := x
    rw [Consistent] at hc
    cases hr : r.epoch memory epochs with
    | none =>
      rw [hr] at hc
      obtain ⟨err, herr, hub⟩ := onChunkedMessage_of_epoch_eq_none h hr
      exact reassemblySafe_cons_of_error herr hub (ih h hc)
    | some e =>
      rw [hr] at hc
      obtain ⟨hagrees, hc⟩ := hc
      obtain ⟨m, hm, heq⟩ := onChunkedMessage_of_epoch_eq_some h hr hagrees
      by_cases hfull : (e.record r.chunk).Complete
      · rw [if_pos (hm.isFullyFilled_iff.mpr hfull)] at heq
        rw [if_pos hfull] at hc
        refine reassemblySafe_cons_of_ok heq ?_ (ih (h.update .none r.key) hc.2)
        intro _ hmessage
        exact Option.mem_some_iff.mp hmessage ▸ hm.none_notMem hfull hc.1
      · rw [if_neg (mt hm.isFullyFilled_iff.mp hfull)] at heq
        rw [if_neg hfull] at hc
        exact reassemblySafe_cons_of_ok heq (by simp) (ih (h.update (.some hm) r.key) hc)

/-! ### Any peer -/

/-- **Reassembly against any peer.** If the requests are consistent then no write of `AddChunk`
leaves its buffer, and every message that is passed on was written completely. -/
theorem chunkReassembly_safe {rs : List (Bool × ChunkRequest)} (h : Consistent (fun _ => none) rs) :
    ReassemblySafe (fun _ => none) rs :=
  ChunkedValues.Tracks.reassemblySafe rs (fun _ => .none) h

/-- The first request asks for more memory than there is; the other two are the two bytes of one
message, in the reverse order. -/
def twoChunksReversed : List (Bool × ChunkRequest) :=
  [(false, ⟨[97], [0], 0, 4611686018427387904⟩), (true, ⟨[97], [1], 1, 2⟩),
    (true, ⟨[97], [2], 0, 2⟩)]

theorem chunkReassembly_safe_twoChunksReversed :
    Consistent (fun _ => none) twoChunksReversed ∧
      ReassemblySafe (fun _ => none) twoChunksReversed := by
  have h : Consistent (fun _ => none) twoChunksReversed := by
    have hdisjoint : Disjoint (elems (0, 1)) (elems (1, 1)) :=
      Finset.Ico_disjoint_Ico_consecutive 0 1 2
    simp [twoChunksReversed, Consistent, ChunkRequest.epoch, ChunkRequest.chunk, Epoch.Agrees,
      Epoch.record, Epoch.Complete, Epoch.Separate, total, hdisjoint]
  exact ⟨h, chunkReassembly_safe h⟩

/-- The second chunk brings a larger total length along, and its bytes are written behind the
buffer that the first one has allocated. -/
theorem not_reassemblySafe_totals :
    ¬ReassemblySafe (fun _ => none)
      [(true, ⟨[97], [0], 0, 2⟩), (true, ⟨[97], [0, 0], 5, 7⟩)] := by
  rintro ⟨out, hout, -⟩
  have herr : reassemble (fun _ => none) [(true, ⟨[97], [0], 0, 2⟩),
      (true, ⟨[97], [0, 0], 5, 7⟩)] = .error .undefinedBehaviour := by decide +kernel
  nomatch hout

end Yacl.Link
