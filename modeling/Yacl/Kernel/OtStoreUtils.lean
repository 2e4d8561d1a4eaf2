import Yacl.Kernel.OtStore

/-!
# Making stores

The model of `yacl/kernel/type/ot_store_utils.cc`: stores from lists of blocks, and the mock
transfers that one place makes for both parties. The random messages of the mock transfers are
arguments. Mock transfers are correct transfers in the sense of `BaseOts`
(`mockRots_baseOts`, `mockCompactOts_baseOts`), so that this notion can be met by stores of both
types.
-/

namespace Yacl.Crypto

/-- `MakeOtSendStore`. -/
def makeOtSendStore (blocks : List (Uint128 × Uint128)) : Except Exception OtSendStore :=
  let size := blocks.length * 2 % 2 ^ 64
  OtSendStore.init (blocks.flatMap fun m => [m.1, m.2]) 0 0 size 0 size .normal

/-- `MakeCompactOtSendStore`. -/
def makeCompactOtSendStore (blocks : List Uint128) (delta : Uint128) :
    Except Exception OtSendStore :=
  OtSendStore.init blocks delta 0 blocks.length 0 blocks.length .compact

/-- `MakeOtRecvStore`. -/
def makeOtRecvStore (choices : DynamicBitset) (blocks : List Uint128) :
    Except Exception OtRecvStore :=
  OtRecvStore.init choices blocks 0 choices.size 0 choices.size .normal

/-- `MakeCompactOtRecvStore`. -/
def makeCompactOtRecvStore (blocks : List Uint128) : Except Exception OtRecvStore :=
  OtRecvStore.init (.ofSize 0) blocks 0 blocks.length 0 blocks.length .compact

/-- `MockRots`, with the pairs of messages that it draws. -/
def mockRots (msgs : List (Uint128 × Uint128)) (choices : DynamicBitset) :
    Except Exception (OtSendStore × OtRecvStore) := do
  enforce (choices.size = msgs.length) "choices.size() == num" ""
  let send ← makeOtSendStore msgs
  let recv ← makeOtRecvStore choices
    (msgs.mapIdx fun i m => if choices.bit i then m.2 else m.1)
  pure (send, recv)

/-- `MockCompactOts`, with the `delta` and the messages that it draws. -/
def mockCompactOts (delta : Uint128) (msgs : List Uint128) :
    Except Exception (OtSendStore × OtRecvStore) := do
  let delta := delta ||| 1
  let send ← makeCompactOtSendStore
    (msgs.map fun m => m ^^^ (m &&& 1) * delta) delta
  let recv ← makeCompactOtRecvStore msgs
  pure (send, recv)

theorem mockRots_type {msgs : List (Uint128 × Uint128)} {choices : DynamicBitset} {s : OtSendStore}
    {r : OtRecvStore} (h : mockRots msgs choices = .ok (s, r)) :
    s.type = .normal ∧ r.type = .normal := by
  obtain ⟨_, h⟩ := of_enforce_bind h
  obtain ⟨s', hs, h⟩ := of_bind_eq_ok h
  obtain ⟨r', hr, h⟩ := of_bind_eq_ok h
  obtain ⟨rfl, rfl⟩ := Prod.mk.inj (Except.ok.inj h)
  exact ⟨OtSendStore.type_of_init hs, OtRecvStore.type_of_init hr⟩

theorem mockCompactOts_type {delta : Uint128} {msgs : List Uint128} {s : OtSendStore}
    {r : OtRecvStore} (h : mockCompactOts delta msgs = .ok (s, r)) :
    s.type = .compact ∧ r.type = .compact := by
  obtain ⟨s', hs, h⟩ := of_bind_eq_ok h
  obtain ⟨r', hr, h⟩ := of_bind_eq_ok h
  obtain ⟨rfl, rfl⟩ := Prod.mk.inj (Except.ok.inj h)
  exact ⟨OtSendStore.type_of_init hs, OtRecvStore.type_of_init hr⟩

theorem xor_and_one_mul (m delta : Uint128) :
    (m ^^^ (m &&& 1) * delta ^^^ if m.getLsbD 0 then delta else 0) = m := by
  have hlsb : m &&& 1 = if m.getLsbD 0 then 1 else 0 := by
    refine BitVec.eq_of_getLsbD_eq fun i hi => ?_
    rw [BitVec.getLsbD_and, Bits.getLsbD_ite_zero]
    by_cases h0 : i = 0
    · rw [h0]
    · simp [h0]
  rw [hlsb]
  cases m.getLsbD 0 <;> simp

theorem length_flatMap_pair (msgs : List (Uint128 × Uint128)) :
    (msgs.flatMap fun m => [m.1, m.2]).length = msgs.length * 2 := by
  simp [List.length_flatMap]

theorem getElem?_flatMap_pair (msgs : List (Uint128 × Uint128)) (i : ℕ) (b : Bool) :
    (msgs.flatMap fun m => [m.1, m.2])[2 * i + b.toNat]? =
      msgs[i]?.map fun m => if b then m.2 else m.1 := by
  induction msgs generalizing i with
  | nil => simp
  | cons m msgs ih =>
    cases i with
    | zero => cases b <;> rfl
    | succ i =>
      rw [show 2 * (i + 1) + b.toNat = 2 * i + b.toNat + 1 + 1 by omega]
      exact ih i

theorem makeOtSendStore_eq {blocks : List (Uint128 × Uint128)} (hpos : 0 < blocks.length)
    (hlt : blocks.length * 2 < 2 ^ 64) :
    ∃ s, makeOtSendStore blocks = .ok s ∧ s.size = blocks.length ∧ s.isSliced = false ∧
      ∀ i m, blocks[i]? = some m → ∀ b : Bool,
        s.getBlock i b.toNat = .ok (if b then m.2 else m.1) := by
  have hmod : blocks.length * 2 % 2 ^ 64 = blocks.length * 2 := Nat.mod_eq_of_lt hlt
  rw [makeOtSendStore, hmod, OtSendStore.init_eq (by omega) (by omega) (by omega)
    (length_flatMap_pair blocks).ge]
  refine ⟨_, rfl, Nat.mul_div_cancel _ (by omega), rfl, fun i m hm b => ?_⟩
  have hi : i < blocks.length := (List.getElem?_eq_some_iff.mp hm).1
  refine OtSendStore.getBlock_of_delta_eq_zero rfl (by exact (by omega : 2 * i < blocks.length * 2))
    (by omega) ?_
  have hget := getElem?_flatMap_pair blocks i b
  rw [hm] at hget
  simpa using hget

theorem makeCompactOtSendStore_eq {blocks : List Uint128} {delta : Uint128}
    (hpos : 0 < blocks.length) (hlt : blocks.length < 2 ^ 64) (hdelta : delta ≠ 0) :
    ∃ s, makeCompactOtSendStore blocks delta = .ok s ∧ s.size = blocks.length ∧
      s.isSliced = false ∧ s.delta = delta ∧ ∀ i x, blocks[i]? = some x → ∀ b : Bool,
        s.getBlock i b.toNat = .ok (x ^^^ if b then delta else 0) := by
  rw [makeCompactOtSendStore, OtSendStore.init_eq hpos (by omega) (by omega) le_rfl]
  refine ⟨_, rfl, rfl, rfl, rfl, fun i x hx b => ?_⟩
  have hi : i < blocks.length := (List.getElem?_eq_some_iff.mp hx).1
  have hidx : OtSendStore.otBlkNum .compact * i = i := Nat.one_mul i
  exact OtSendStore.getBlock_of_delta_ne_zero hdelta (by exact hidx.trans_lt hi)
    (by exact hidx.trans_lt (by omega)) (by simpa [hidx] using hx)

theorem makeOtRecvStore_eq {choices : DynamicBitset} {blocks : List Uint128}
    (hsize : choices.size = blocks.length) (hpos : 0 < blocks.length) :
    ∃ r, makeOtRecvStore choices blocks = .ok r ∧ r.size = blocks.length ∧ r.isSliced = false ∧
      (∀ i, r.choice i = choices.bit i) ∧ ∀ i x, blocks[i]? = some x → r.block i = x := by
  rw [makeOtRecvStore, OtRecvStore.init_eq (by omega) (by omega) (by omega) hsize.le fun _ => hsize]
  refine ⟨_, rfl, hsize, rfl, fun i => congrArg choices.bit (Nat.zero_add i), fun i x hx => ?_⟩
  refine (congrArg (fun k => blocks.getD k 0) (Nat.zero_add i)).trans ?_
  rw [List.getD_eq_getElem?_getD, hx, Option.getD_some]

theorem makeCompactOtRecvStore_eq {blocks : List Uint128} (hpos : 0 < blocks.length) :
    ∃ r, makeCompactOtRecvStore blocks = .ok r ∧ r.size = blocks.length ∧ r.isSliced = false ∧
      (∀ i, r.choice i = (r.block i).getLsbD 0) ∧ ∀ i x, blocks[i]? = some x → r.block i = x := by
  rw [makeCompactOtRecvStore, OtRecvStore.init_eq hpos (by omega) (by omega) le_rfl (by simp)]
  refine ⟨_, rfl, rfl, rfl, fun i => rfl, fun i x hx => ?_⟩
  refine (congrArg (fun k => blocks.getD k 0) (Nat.zero_add i)).trans ?_
  rw [List.getD_eq_getElem?_getD, hx, Option.getD_some]

/-- **Mock random transfers are correct.** -/
theorem mockRots_baseOts (msgs : List (Uint128 × Uint128)) (choices : DynamicBitset)
    (hsize : choices.size = msgs.length) (hpos : 0 < msgs.length)
    (hlt : msgs.length * 2 < 2 ^ 64) :
    ∃ send recv, mockRots msgs choices = .ok (send, recv) ∧ BaseOts recv send ∧
      recv.size = msgs.length ∧ recv.isSliced = false ∧ send.isSliced = false := by
  obtain ⟨send, hsend, hsize1, hsliced1, hblock1⟩ := makeOtSendStore_eq hpos hlt
  have hlen : (msgs.mapIdx fun i m => if choices.bit i then m.2 else m.1).length = msgs.length :=
    List.length_mapIdx
  obtain ⟨recv, hrecv, hsize2, hsliced2, hchoice, hblock2⟩ :=
    makeOtRecvStore_eq (hsize.trans hlen.symm) (hlen ▸ hpos)
  refine ⟨send, recv, ?_, ⟨by rw [hsize1, hsize2, hlen], fun i hi => ?_⟩, by rw [hsize2, hlen],
    hsliced2, hsliced1⟩
  · rw [mockRots, enforce_bind hsize, hsend, hrecv]
    rfl
  · rw [hsize2, hlen] at hi
    have hm := List.getElem?_eq_getElem hi
    refine ⟨fun b => if b then msgs[i].2 else msgs[i].1, hblock1 i _ hm, ?_⟩
    rw [hchoice]
    exact hblock2 i _ (by rw [List.getElem?_mapIdx, hm]; rfl)

/-- **Mock compact transfers are correct**, with an odd `delta`. -/
theorem mockCompactOts_baseOts (msgs : List Uint128) (delta : Uint128) (hpos : 0 < msgs.length)
    (hlt : msgs.length < 2 ^ 64) :
    ∃ send recv, mockCompactOts delta msgs = .ok (send, recv) ∧ BaseOts recv send ∧
      recv.size = msgs.length ∧ recv.isSliced = false ∧ send.isSliced = false ∧
      send.delta = delta ||| 1 := by
  have hdelta : delta ||| 1 ≠ 0 := by
    intro h
    have := congrArg (·.getLsbD 0) h
    simp at this
  have hlen : (msgs.map fun m => m ^^^ (m &&& 1) * (delta ||| 1)).length = msgs.length :=
    List.length_map _
  obtain ⟨send, hsend, hsize1, hsliced1, hdelta1, hblock1⟩ :=
    makeCompactOtSendStore_eq (hlen ▸ hpos) (hlen ▸ hlt) hdelta
  obtain ⟨recv, hrecv, hsize2, hsliced2, hchoice, hblock2⟩ := makeCompactOtRecvStore_eq hpos
  refine ⟨send, recv, ?_, ⟨by rw [hsize1, hsize2, hlen], fun i hi => ?_⟩, hsize2, hsliced2,
    hsliced1, hdelta1⟩
  · rw [mockCompactOts, hsend, hrecv]
    rfl
  · rw [hsize2] at hi
    have hm := List.getElem?_eq_getElem hi
    refine ⟨fun b => _, hblock1 i _ (by rw [List.getElem?_map, hm]; rfl), ?_⟩
    rw [hchoice, hblock2 i _ hm]
    exact (xor_and_one_mul (msgs[i]) (delta ||| 1)).symm

/-- **Compact transfers exist** for any choices, in stores of their own. -/
theorem exists_compactOts {num : ℕ} (hpos : 0 < num) (hlt : num < 2 ^ 64) (c : ℕ → Bool) :
    ∃ r s, BaseOts r s ∧ s.delta ≠ 0 ∧ r.useCtr = 0 ∧ s.useCtr = 0 ∧ s.useSize < 2 ^ 64 ∧
      r.size = num ∧ ∀ i < num, r.choice i = c i := by
  set msgs : List Uint128 := (List.range num).map fun i => if c i then 1 else 0 with hmsgs
  have hlen : msgs.length = num := by simp [hmsgs]
  have hmap : (msgs.map fun m => m ^^^ (m &&& 1) * (0 ||| 1)).length = num :=
    (List.length_map _).trans hlen
  obtain ⟨s, r, hmock, hbase, hsize, -, -, hdelta⟩ :=
    mockCompactOts_baseOts msgs 0 (by omega) (by omega)
  rw [mockCompactOts, makeCompactOtSendStore,
    OtSendStore.init_eq (hmap.symm ▸ hpos) (Nat.zero_add _).le (Nat.zero_le _) le_rfl,
    makeCompactOtRecvStore,
    OtRecvStore.init_eq (hlen.symm ▸ hpos) (Nat.zero_add _).le (Nat.zero_le _) le_rfl
      (by simp)] at hmock
  obtain ⟨rfl, rfl⟩ := Prod.mk.inj (Except.ok.inj hmock)
  refine ⟨_, _, hbase, by rw [hdelta]; decide, rfl, rfl, hmap.trans_lt hlt, hsize.trans hlen,
    fun i hi => ?_⟩
  refine (congrArg (fun k => (msgs.getD k 0).getLsbD 0) (Nat.zero_add i)).trans ?_
  rw [getD_map_range hi]
  cases c i <;> rfl

end Yacl.Crypto
