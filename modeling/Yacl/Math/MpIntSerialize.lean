import Yacl.Math.MpIntBytes

/-!
# Serialized integers

The model of `mpx_to_mag_bytes`, `mpx_set_bit`, `mpx_serialize` and `mpx_deserialize`
(`yacl/math/mpint/tommath_ext_features.cc`), which the methods `Serialize` and `Deserialize` of
`MPInt` call. A serialized number is its magnitude, least significant byte first, with the sign in
the highest bit of the last byte (`mpxSerialize_spec`). It is read as one magnitude, whose highest
bit is cleared after the sign was taken from it (`mpxDeserialize_spec`); clearing the bit
normalises the digits once more, so that minus zero becomes zero.
-/

open Loop Radix Bytes

namespace Yacl.Math

/-! ### The bytes of a magnitude -/

/-- `mpx_mag_bytes_size`. -/
def mpxMagBytesSize (num : MpInt) : ℕ := ((mpxCountBitsFast num + 8 - 1).tdiv 8).toNat

/-- The body of the loop of `mpx_to_mag_bytes` over all digits but the last. -/
def toMagBytesDigit (num : MpInt) (minBytes : ℕ) (endian : Endian) (digitIdx : ℕ)
    (s : ByteWriter) : Except Exception ByteWriter := do
  let d ← vecGet num.dp digitIdx
  let cache := s.cache ||| (d <<< s.cacheRemain) % 2 ^ 64
  let cacheRemain := s.cacheRemain + mpDigitBit
  whileLoop .nonTermination (fun w : ByteWriter => 8 ≤ w.cacheRemain)
    (ByteWriter.drain endian minBytes) cacheRemain
    { s with cache := cache, cacheRemain := cacheRemain }

/-- The part of `mpx_to_mag_bytes` for numbers that are not zero. -/
def toMagBytesLoop (num : MpInt) (buf : List Byte) (minBytes : ℕ) (endian : Endian) :
    Except Exception (List Byte × ℕ) := do
  let s ← forLoop (num.used - 1) (toMagBytesDigit num minBytes endian)
    { buf := buf, pos := 0, cache := 0, cacheRemain := 0 }
  let d ← vecGet num.dp (num.used - 1)
  let cache := s.cache ||| (d <<< s.cacheRemain) % 2 ^ 64
  -- the cache has `64` bits, which are used up by then
  let s ← whileLoop .nonTermination (fun w : ByteWriter => 0 < w.cache)
    (ByteWriter.write endian minBytes) 64 { s with cache := cache }
  pure (s.buf, s.pos)

/-- `mpx_to_mag_bytes`: the buffer and the number of bytes. -/
def mpxToMagBytes (num : MpInt) (buf : List Byte) (endian : Endian) :
    Except Exception (List Byte × ℕ) :=
  if num.used = 0 then pure (buf, 0)
  else do
    let minBytes := mpxMagBytesSize num
    enforce (minBytes ≤ buf.length) "buf_len >= min_bytes"
      s!"buf is too small to store mp_int, buf_size={buf.length}, required={minBytes}"
    toMagBytesLoop num buf minBytes endian

theorem mpxMagBytesSize_eq {num : MpInt} (h : num.Valid) :
    mpxMagBytesSize num = (num.mag.size + 7) / 8 := by
  rw [mpxMagBytesSize, mpxCountBitsFast_eq h, Int.tdiv_eq_ediv_of_nonneg (by omega)]
  omega

section ToMagBytes

variable {num : MpInt} {endian : Endian} {buf0 : List Byte} {len : ℕ}

theorem toMagBytesDigit_ok (hnum : num.Shaped) (hlen : len ≤ buf0.length) {i : ℕ}
    (hi : i < num.used) (hroom : mpDigitBit * (i + 1) ≤ 8 * len) {w : ByteWriter}
    (h : Writing endian len buf0 (mpDigitBit * i) (value mpDigitBit i num.digit) w)
    (hrem : w.cacheRemain < 8) :
    ∃ w', toMagBytesDigit num len endian i w = .ok w' ∧
      Writing endian len buf0 (mpDigitBit * (i + 1)) (value mpDigitBit (i + 1) num.digit) w' ∧
      w'.cacheRemain < 8 := by
  have hbits := h.bits
  have hfour : w.cacheRemain ≤ 4 := by
    rw [mpDigitBit] at *
    omega
  obtain ⟨w', hloop, hw, hstop⟩ := whileLoop_ok Exception.nonTermination
    (fun w : ByteWriter => 8 ≤ w.cacheRemain) (ByteWriter.drain endian len)
    (Writing endian len buf0 _ _) (fun w => w.cacheRemain) (Nat.le_refl _)
    (h.feed (hnum.digit_lt i) hfour) fun w hw hcond => by
      have hsum := hw.bits
      rw [mpDigitBit] at *
      exact hw.drain hlen (by omega) hcond
  refine ⟨w', ?_, ?_, by omega⟩
  · rw [toMagBytesDigit, MpInt.vecGet_dp (by have := hnum.used_le; omega)]
    exact hloop
  · rw [value_succ]
    exact hw

/-- The bytes of the last digit: the number has more bits than were written as long as the cache is
not empty. -/
theorem writeLast_ok (hlen : len ≤ buf0.length) {V : ℕ} (hsize : (V.size + 7) / 8 ≤ len)
    {w : ByteWriter} {P : ℕ} (hpos : w.pos ≤ (V.size + 7) / 8)
    (hwritten : Written endian len buf0 w.buf w.pos P)
    (hvalue : V = P + w.cache * 2 ^ (8 * w.pos)) (hlt : w.cache < 2 ^ 64) :
    ∃ w', whileLoop .nonTermination (fun w : ByteWriter => 0 < w.cache)
        (ByteWriter.write endian len) 64 w = .ok w' ∧
      w'.pos = (V.size + 7) / 8 ∧ Written endian len buf0 w'.buf w'.pos V := by
  obtain ⟨w', hloop, ⟨hpos', P', hwritten', hvalue'⟩, hstop⟩ := whileLoop_ok
    Exception.nonTermination (fun w : ByteWriter => 0 < w.cache) (ByteWriter.write endian len)
    (fun w => w.pos ≤ (V.size + 7) / 8 ∧ ∃ P, Written endian len buf0 w.buf w.pos P ∧
      V = P + w.cache * 2 ^ (8 * w.pos))
    (fun w => w.cache.size) (Nat.size_le.mpr hlt) ⟨hpos, P, hwritten, hvalue⟩
    fun w ⟨_, P, hwritten, hvalue⟩ hcond => by
      have hbits : 8 * w.pos < V.size := by
        rw [Nat.lt_size, hvalue]
        exact (Nat.le_mul_of_pos_left _ hcond).trans (Nat.le_add_left _ _)
      obtain ⟨buf', hput, hnext, -⟩ := hwritten.putByte (by omega) hlen w.cache
      refine ⟨{ w with buf := buf', pos := w.pos + 1, cache := w.cache >>> 8 }, ?_,
        ⟨by dsimp only; omega, _, hnext, ?_⟩, ?_⟩
      · rw [ByteWriter.write, hput]
        rfl
      · have hsplit := Nat.div_add_mod w.cache (2 ^ 8)
        rw [Nat.shiftRight_eq_div_pow, Nat.mul_succ]
        calc V = P + w.cache * 2 ^ (8 * w.pos) := hvalue
          _ = P + (2 ^ 8 * (w.cache / 2 ^ 8) + w.cache % 2 ^ 8) * 2 ^ (8 * w.pos) := by rw [hsplit]
          _ = _ := by ring
      · dsimp only
        have hsz : 0 < w.cache.size := Nat.size_pos.mpr hcond
        refine Nat.lt_of_le_of_lt (Nat.size_le.mpr ?_) (Nat.sub_lt hsz Nat.one_pos)
        have hself := Nat.lt_size_self w.cache
        rw [show w.cache.size = w.cache.size - 1 + 1 by omega] at hself
        omega
  have hzero : w'.cache = 0 := by omega
  rw [hzero, Nat.zero_mul] at hvalue'
  have hfull : V.size ≤ 8 * w'.pos := by
    rw [Nat.size_le, hvalue', ← hwritten'.value_eq]
    exact value_lt fun k _ => byteAt_lt endian len w'.buf k
  exact ⟨w', hloop, by omega, hvalue' ▸ hwritten'⟩

/-- **The bytes of a magnitude.** -/
theorem mpxToMagBytes_spec (hnum : num.Valid) (hlen : mpxMagBytesSize num ≤ buf0.length) :
    mpxToMagBytes num buf0 endian =
      .ok (bytesOf endian (mpxMagBytesSize num) num.mag ++ buf0.drop (mpxMagBytesSize num),
        mpxMagBytesSize num) := by
  have hsize := mpxMagBytesSize_eq hnum
  rw [mpxToMagBytes]
  split
  · next hused =>
    have hmag : num.mag = 0 := by rw [MpInt.mag, hused, value_zero]
    have hzero : mpxMagBytesSize num = 0 := by rw [hsize, hmag]; rfl
    rw [hzero]
    rfl
  next hused =>
  obtain ⟨n, hn⟩ := Nat.exists_eq_succ_of_ne_zero hused
  have htop := hnum.top_ne_zero (by omega)
  have hle := hnum.used_le
  rw [hn] at htop
  have hmag : num.mag = value mpDigitBit n num.digit + num.digit n * 2 ^ (mpDigitBit * n) := by
    rw [MpInt.mag, hn, value_succ]
  have hbits : mpDigitBit * n < num.mag.size := by
    rw [Nat.lt_size, hmag]
    exact (Nat.le_mul_of_pos_left _ (Nat.pos_of_ne_zero htop)).trans (Nat.le_add_left _ _)
  have hinit : Writing endian (mpxMagBytesSize num) buf0 (mpDigitBit * 0)
      (value mpDigitBit 0 num.digit) { buf := buf0, pos := 0, cache := 0, cacheRemain := 0 } :=
    ⟨Nat.zero_le _, 0, ⟨rfl, fun _ _ => rfl, rfl⟩, Cache.empty⟩
  obtain ⟨w, hloop, hw, hrem⟩ := forLoop_ok
    (fun i w => Writing endian (mpxMagBytesSize num) buf0 (mpDigitBit * i)
      (value mpDigitBit i num.digit) w ∧ w.cacheRemain < 8)
    ⟨hinit, Nat.zero_lt_succ 7⟩
    fun i (hi : i < n) w h =>
      toMagBytesDigit_ok hnum.toShaped hlen (by omega) (by rw [mpDigitBit] at *; omega) h.1 h.2
  -- the last digit, like the others, goes into the cache
  have hsum := hw.bits
  obtain ⟨hpos, P, hwritten, hcache⟩ := hw.feed (hnum.digit_lt n)
    (by rw [mpDigitBit] at *; omega)
  rw [← hmag] at hcache
  have hword : w.cacheRemain + mpDigitBit ≤ 64 := by
    rw [mpDigitBit] at *
    omega
  obtain ⟨w', hlast, hpos', hwritten'⟩ := writeLast_ok hlen (hsize ▸ Nat.le_refl _)
    (w := { w with cache := w.cache ||| (num.digit n <<< w.cacheRemain) % 2 ^ 64 })
    (by rw [← hsize]; exact hpos) hwritten hcache.value_eq
    (hcache.lt.trans_le (Nat.pow_le_pow_right (by omega) hword))
  rw [enforce_bind hlen, toMagBytesLoop, hn, Nat.succ_sub_one, hloop, ok_bind,
    MpInt.vecGet_dp (by omega), ok_bind]
  dsimp only
  rw [hlast]
  refine congrArg Except.ok (Prod.ext ?_ ?_)
  · refine eq_bytesOf_append hwritten'.length_eq hlen ?_ hwritten'.rest
    rw [bytesValue, ← hwritten'.value_eq, hpos', hsize]
  · exact hpos'.trans hsize.symm

end ToMagBytes

/-! ### Serialization -/

/-- The array of `mpx_set_bit`, which has digit `limb`. -/
def growToLimb (a : MpInt) (limb : ℕ) : Except Exception (List ℕ) :=
  if a.dp.length ≤ limb then do
    let b ← MpErr.enforceOk "mp_grow(a, limb + 1)" (mpGrow a (limb + 1 : ℕ))
    clearDigits b.dp a.used (limb + 1)
  else pure a.dp

/-- `mpx_set_bit`. -/
def mpxSetBit (a : MpInt) (index : ℤ) (value : ℕ) : Except Exception MpInt := do
  -- a negative index is a shift by a negative number, or an access before the array
  definedIf (0 ≤ index)
  let limb := index.toNat / mpDigitBit
  let dp ← growToLimb a limb
  let used := if a.used ≤ limb then limb + 1 else a.used
  let loc := 1 <<< (index.toNat % mpDigitBit)
  let d ← vecGet dp limb
  let dp ← vecSet dp limb (if value ≠ 0 then d ||| loc else d &&& (2 ^ 64 - 1 - loc))
  pure (mpClamp { a with used := used, dp := dp })

/-- `mpx_serialize_size`. -/
def mpxSerializeSize (num : MpInt) : ℕ := ((mpxCountBitsFast num).tdiv 8 + 1).toNat

/-- `mpx_serialize`: the buffer and the number of bytes. -/
def mpxSerialize (num : MpInt) (buf : List Byte) : Except Exception (List Byte × ℕ) := do
  let totalBuf := mpxSerializeSize num
  enforce (totalBuf ≤ buf.length) "buf_len >= total_buf"
    s!"buf is too small, min required={totalBuf}, actual={buf.length}"
  let buf ← vecSet buf (totalBuf - 1) 0
  let (buf, valueBuf) ← mpxToMagBytes num buf .little
  enforce (totalBuf = valueBuf ∨ totalBuf = valueBuf + 1)
    "total_buf == value_buf || total_buf == value_buf + 1"
    s!"bug: buf len mismatch, {totalBuf} vs {valueBuf}"
  let sign : Byte := if num.sign = .neg then 0x80 else 0
  let last ← vecGet buf (totalBuf - 1)
  let buf ← vecSet buf (totalBuf - 1) (last ||| sign)
  pure (buf, totalBuf)

/-- `mpx_deserialize`. -/
def mpxDeserialize (num : MpInt) (buf : List Byte) : Except Exception MpInt := do
  enforce (0 < buf.length) "buf_len > 0" "mp_int deserialize: empty buffer"
  let num ← mpxFromMagBytes num buf .little
  let last ← vecGet buf (buf.length - 1)
  let sign : MpSign := if last >>> 7 = 1 then .neg else .zpos
  mpxSetBit { num with sign := sign } (toCInt (buf.length * 8 - 1)) 0

theorem mpxSerializeSize_eq {num : MpInt} (h : num.Valid) :
    mpxSerializeSize num = num.mag.size / 8 + 1 := by
  rw [mpxSerializeSize, mpxCountBitsFast_eq h, Int.tdiv_eq_ediv_of_nonneg (by omega)]
  omega

theorem bytesOf_congr {endian : Endian} {n v v' : ℕ} (h : v % 2 ^ (8 * n) = v' % 2 ^ (8 * n)) :
    bytesOf endian n v = bytesOf endian n v' := by
  refine List.map_congr_left fun i hi => BitVec.eq_of_toNat_eq ?_
  have hk := byteIndex_lt endian (List.mem_range.mp hi)
  have hdigit : ∀ v, v / 2 ^ (8 * byteIndex endian n i) % 2 ^ 8 =
      v % 2 ^ (8 * n) / 2 ^ (8 * byteIndex endian n i) % 2 ^ 8 := by
    intro v
    rw [← value_digits 8 n v]
    exact (div_value_mod (f := fun k => v / 2 ^ (8 * k) % 2 ^ 8)
      (fun k _ => Nat.mod_lt _ (Nat.two_pow_pos 8)) hk).symm
  rw [BitVec.toNat_ofNat, BitVec.toNat_ofNat, hdigit v, hdigit v', h]

theorem bytesOf_little_succ (n v : ℕ) :
    bytesOf .little (n + 1) v = bytesOf .little n v ++ [BitVec.ofNat 8 (v / 2 ^ (8 * n))] := by
  rw [bytesOf, List.range_succ, List.map_append]
  rfl

/-- The bit of the sign. -/
def signBit (num : MpInt) : ℕ := if num.sign = .neg then 1 else 0

theorem or_sign_eq (num : MpInt) {b : ℕ} (hb : b < 128) :
    (BitVec.ofNat 8 b ||| if num.sign = .neg then (0x80 : Byte) else 0) =
      BitVec.ofNat 8 (b + signBit num * 128) := by
  rw [signBit]
  split
  · refine BitVec.eq_of_toNat_eq ?_
    have hor : 128 + b = 128 ||| b := Nat.two_pow_add_eq_or_of_lt (i := 7) hb 1
    rw [BitVec.toNat_or, BitVec.toNat_ofNat, BitVec.toNat_ofNat, Nat.mod_eq_of_lt (by omega),
      Nat.mod_eq_of_lt (by omega)]
    change b ||| 128 = b + 1 * 128
    rw [Nat.or_comm]
    omega
  · exact BitVec.or_zero

/-- **The bytes of a serialized number**: the magnitude, and the sign in the highest bit. Nothing
after them is touched. -/
theorem mpxSerialize_spec {num : MpInt} (hnum : num.Valid) {buf : List Byte}
    (hlen : mpxSerializeSize num ≤ buf.length) :
    mpxSerialize num buf =
      .ok (bytesOf .little (mpxSerializeSize num)
          (num.mag + signBit num * 2 ^ (8 * mpxSerializeSize num - 1)) ++
        buf.drop (mpxSerializeSize num), mpxSerializeSize num) := by
  have htotal := mpxSerializeSize_eq hnum
  have hmag := mpxMagBytesSize_eq hnum
  obtain ⟨n, hn⟩ : ∃ n, mpxSerializeSize num = n + 1 := ⟨_, htotal⟩
  have hsize : num.mag.size ≤ 8 * n + 7 := by omega
  have hlt : num.mag < 2 ^ (8 * n + 7) := Nat.size_le.mp hsize
  -- after the magnitude was written, all bytes but the sign are in place
  have hvalue : ∃ buf', vecSet buf n 0 = .ok buf' ∧
      mpxToMagBytes num buf' .little =
        .ok (bytesOf .little (n + 1) num.mag ++ buf.drop (n + 1), mpxMagBytesSize num) := by
    refine ⟨buf.set n 0, vecSet_of_lt (by omega) 0, ?_⟩
    rw [mpxToMagBytes_spec hnum (by rw [List.length_set]; omega)]
    refine congrArg (fun b => Except.ok (b, mpxMagBytesSize num)) ?_
    rcases (show mpxMagBytesSize num = n + 1 ∨ mpxMagBytesSize num = n by omega) with hm | hm
    · rw [hm, List.drop_set_of_lt (by omega)]
    · have hzero : num.mag / 2 ^ (8 * n) = 0 := by
        refine Nat.div_eq_of_lt (Nat.size_le.mp ?_)
        omega
      have hlen' : n < (buf.set n 0).length := by rw [List.length_set]; omega
      rw [hm, bytesOf_little_succ, hzero, List.append_assoc, List.drop_eq_getElem_cons hlen',
        List.getElem_set_self, List.drop_set_of_lt (by omega)]
      rfl
  obtain ⟨buf', hset, hput⟩ := hvalue
  have hb : num.mag / 2 ^ (8 * n) < 128 := by
    rw [Nat.div_lt_iff_lt_mul (Nat.two_pow_pos _), show 128 = 2 ^ 7 by rfl, ← pow_add,
      Nat.add_comm]
    exact hlt
  have hsum : (num.mag + signBit num * 2 ^ (8 * n + 7)) / 2 ^ (8 * n) =
      num.mag / 2 ^ (8 * n) + signBit num * 128 := by
    rw [pow_add, Nat.mul_comm (2 ^ (8 * n)), ← Nat.mul_assoc,
      Nat.add_mul_div_right _ _ (Nat.two_pow_pos _)]
    rfl
  have hlow : bytesOf .little n (num.mag + signBit num * 2 ^ (8 * n + 7)) =
      bytesOf .little n num.mag := by
    refine bytesOf_congr ?_
    rw [pow_add, Nat.mul_comm (2 ^ (8 * n)), ← Nat.mul_assoc, Nat.add_mul_mod_self_right]
  have hbuf : ∀ b : Byte, (bytesOf .little (n + 1) num.mag ++ buf.drop (n + 1)).set n b =
      bytesOf .little n num.mag ++ [b] ++ buf.drop (n + 1) := by
    intro b
    rw [bytesOf_little_succ, List.append_assoc, List.append_assoc,
      List.set_append_right _ _ (by simp), length_bytesOf, Nat.sub_self]
    rfl
  have hget : vecGet (bytesOf .little (n + 1) num.mag ++ buf.drop (n + 1)) n =
      .ok (BitVec.ofNat 8 (num.mag / 2 ^ (8 * n))) := by
    refine vecGet_of_getElem? ?_
    rw [bytesOf_little_succ, List.append_assoc, List.getElem?_append_right (by simp),
      length_bytesOf, Nat.sub_self]
    rfl
  rw [mpxSerialize, hn, enforce_bind (by omega), Nat.add_sub_cancel, hset, ok_bind, hput, ok_bind]
  dsimp only
  rw [enforce_bind (by omega), hget, ok_bind, vecSet_of_lt (by simp; omega), hbuf,
    or_sign_eq num hb, bytesOf_little_succ, show 8 * (n + 1) - 1 = 8 * n + 7 by omega, hsum, hlow]
  rfl

theorem and_not_bit {d j : ℕ} (hj : j < 64) (hd : d < 2 ^ (j + 1)) :
    d &&& (2 ^ 64 - 1 - 1 <<< j) = d % 2 ^ j := by
  have hloc : 1 <<< j < 2 ^ 64 := by
    rw [Nat.shiftLeft_eq, Nat.one_mul]
    exact Nat.pow_lt_pow_right (by omega) hj
  refine Nat.eq_of_testBit_eq fun i => ?_
  rw [Nat.testBit_and, show 2 ^ 64 - 1 - 1 <<< j = 2 ^ 64 - (1 <<< j + 1) by omega,
    Nat.testBit_two_pow_sub_succ hloc, Nat.shiftLeft_eq, Nat.one_mul]
  by_cases hi : i < j
  · simp [hi, show i < 64 by omega, show j ≠ i by omega]
  · by_cases hij : j = i
    · simp [hij]
    · have hhigh : d.testBit i = false :=
        Nat.testBit_lt_two_pow (hd.trans_le (Nat.pow_le_pow_right (by omega) (by omega)))
      simp [hhigh]

theorem growToLimb_ok {a : MpInt} (h : a.Shaped) {limb : ℕ} (hlimb : limb < mpMaxDigitCount) :
    ∃ dp, growToLimb a limb = .ok dp ∧ limb < dp.length ∧ a.used ≤ dp.length ∧
      ∀ i, dp.getD i 0 = a.digit i := by
  rw [growToLimb]
  split
  · obtain ⟨b, hok, -, hlength, hsame⟩ := mpGrow_ok h (Nat.succ_le_of_lt hlimb)
    obtain ⟨dp, hclear, hlen, hdigit⟩ := clearDigits_ok a.used
      (show limb + 1 ≤ b.dp.length by omega)
    rw [hok]
    refine ⟨dp, hclear, by omega, by have := h.used_le; omega, fun i => ?_⟩
    rw [hdigit i]
    split_ifs with hi
    · exact (h.digit_zero i hi.1).symm
    · exact hsame i
  · exact ⟨a.dp, rfl, by omega, h.used_le, fun _ => rfl⟩

/-- **Clearing a bit** above which the number has none, which removes it. -/
theorem mpxSetBit_zero {a : MpInt} (h : a.Shaped) {index : ℕ} (hlt : a.mag < 2 ^ (index + 1))
    (hmax : index < mpDigitBit * mpMaxDigitCount) :
    ∃ b, mpxSetBit a index 0 = .ok b ∧ b.Valid ∧ b.toInt = a.sign.apply (a.mag % 2 ^ index) := by
  have hindex := Nat.div_add_mod index mpDigitBit
  have hj : index % mpDigitBit < mpDigitBit := Nat.mod_lt _ (by decide)
  have hlimbMax : index / mpDigitBit < mpMaxDigitCount := Nat.div_lt_of_lt_mul hmax
  generalize hlimb : index / mpDigitBit = limb at hindex hlimbMax
  generalize hmod : index % mpDigitBit = j at hindex hj
  obtain ⟨dp, hgrow, hlimbLt, husedLe, hdigits⟩ := growToLimb_ok h hlimbMax
  have hhigh : ∀ i, limb < i → a.digit i = 0 := by
    intro i hi
    by_cases hiu : i < a.used
    · rw [← div_value_mod (fun k _ => h.digit_lt k) hiu, Nat.div_eq_of_lt, Nat.zero_mod]
      refine hlt.trans_le (Nat.pow_le_pow_right (by omega) ?_)
      calc index + 1 ≤ mpDigitBit * (limb + 1) := by rw [Nat.mul_succ]; omega
        _ ≤ mpDigitBit * i := Nat.mul_le_mul_left _ hi
    · exact h.digit_zero i (by omega)
  have hmag : a.mag = value mpDigitBit limb a.digit + a.digit limb * 2 ^ (mpDigitBit * limb) := by
    rw [← value_succ, ← MpInt.value_digit_of_le h (Nat.le_max_left a.used (limb + 1))]
    exact value_eq_of_zero (Nat.le_max_right _ _) fun i hi _ => hhigh i hi
  have hlow : value mpDigitBit limb a.digit < 2 ^ (mpDigitBit * limb) :=
    value_lt fun i _ => h.digit_lt i
  have hdlt : a.digit limb < 2 ^ (j + 1) := by
    by_contra hge
    have hmul := Nat.mul_le_mul_right (2 ^ (mpDigitBit * limb)) (not_lt.mp hge)
    rw [← pow_add] at hmul
    rw [show index + 1 = j + 1 + mpDigitBit * limb by omega] at hlt
    omega
  have hnew : a.digit limb &&& (2 ^ 64 - 1 - 1 <<< j) = a.digit limb % 2 ^ j :=
    and_not_bit (by rw [mpDigitBit] at hj; omega) hdlt
  have hfinal : (MpInt.mk a.sign (if a.used ≤ limb then limb + 1 else a.used)
      (dp.set limb (a.digit limb % 2 ^ j))).Shaped := by
    refine ⟨?_, fun i => ?_, fun i hi => ?_⟩
    · dsimp only
      rw [List.length_set]
      split <;> omega
    · rw [MpInt.digit, getD_set hlimbLt, hdigits]
      split
      · exact (Nat.mod_le _ _).trans_lt (h.digit_lt limb)
      · exact h.digit_lt i
    · have hi' : limb < i := by
        dsimp only at hi
        split at hi <;> omega
      rw [MpInt.digit, getD_set hlimbLt, if_neg (by omega), hdigits, hhigh i hi']
  have hget : vecGet dp limb = .ok (a.digit limb) := by
    rw [← hdigits]
    exact vecGet_getD hlimbLt 0
  refine ⟨_, ?_, valid_mpClamp hfinal, ?_⟩
  · rw [mpxSetBit, definedIf_bind (Int.natCast_nonneg index), Int.toNat_natCast, hlimb, hmod]
    dsimp only
    rw [hgrow, ok_bind, hget, ok_bind, vecSet_of_lt hlimbLt, hnew]
    rfl
  · have hvalue : (MpInt.mk a.sign (if a.used ≤ limb then limb + 1 else a.used)
        (dp.set limb (a.digit limb % 2 ^ j))).mag =
        value mpDigitBit limb a.digit + a.digit limb % 2 ^ j * 2 ^ (mpDigitBit * limb) := by
      rw [← MpInt.value_digit_of_le hfinal (Nat.le_max_left _ (limb + 1)),
        value_eq_of_zero (Nat.le_max_right _ _) fun i hi _ => by
          rw [MpInt.digit, getD_set hlimbLt, if_neg (by omega), hdigits, hhigh i hi],
        value_succ]
      congr 1
      · refine value_congr fun i hi => ?_
        rw [MpInt.digit, getD_set hlimbLt, if_neg (by omega), hdigits]
      · rw [MpInt.digit, getD_set hlimbLt, if_pos rfl]
    rw [toInt_mpClamp, MpInt.toInt, hvalue, ← hindex, pow_add, Nat.mod_mul, hmag,
      Nat.add_mul_mod_self_right, Nat.mod_eq_of_lt hlow,
      Nat.add_mul_div_right _ _ (Nat.two_pow_pos _), Nat.div_eq_of_lt hlow, Nat.zero_add,
      Nat.mul_comm (a.digit limb % 2 ^ j)]

/-! ### Deserialization -/

/-- **Deserialization** of any bytes for which an array may have digits, whatever the number was
before. -/
theorem mpxDeserialize_spec {num : MpInt} (hnum : num.Shaped) {buf : List Byte} {n : ℕ}
    (hn : buf.length = n + 1) (hmax : 8 * (n + 1) ≤ mpDigitBit * mpMaxDigitCount) :
    ∃ a, mpxDeserialize num buf = .ok a ∧ a.Valid ∧
      a.toInt = (if 2 ^ (8 * n + 7) ≤ bytesValue .little (n + 1) buf then MpSign.neg
        else MpSign.zpos).apply (bytesValue .little (n + 1) buf % 2 ^ (8 * n + 7)) := by
  obtain ⟨a, hread, hvalid, hint⟩ := mpxFromMagBytes_spec hnum buf .little
    (by rwa [hn])
  rw [hn] at hint
  have hmag : a.mag = bytesValue .little (n + 1) buf := by
    rw [← MpInt.natAbs_toInt, hint, Int.natAbs_natCast]
  have hlt : a.mag < 2 ^ (8 * n + 7 + 1) := by
    rw [hmag]
    exact bytesValue_lt .little (n + 1) buf
  have hnlt : n < buf.length := by omega
  have hget := vecGet_getD hnlt 0
  -- the sign is the highest bit of the number
  have hsign : buf.getD n 0 >>> 7 = 1 ↔ 2 ^ (8 * n + 7) ≤ a.mag := by
    have hlow : value 8 n (byteAt .little (n + 1) buf) < 2 ^ (8 * n) :=
      value_lt fun k _ => byteAt_lt .little (n + 1) buf k
    have hsplit : a.mag = value 8 n (byteAt .little (n + 1) buf) +
        (buf.getD n 0).toNat * 2 ^ (8 * n) := by
      rw [hmag, bytesValue, value_succ]
      rfl
    have hbit : buf.getD n 0 >>> 7 = 1 ↔ 128 ≤ (buf.getD n 0).toNat := by
      rw [← BitVec.toNat_inj, BitVec.toNat_ushiftRight, Nat.shiftRight_eq_div_pow]
      change (buf.getD n 0).toNat / 128 = 1 ↔ _
      omega
    rw [hbit, hsplit, Nat.add_comm (8 * n), pow_add]
    constructor
    · intro hge
      exact (Nat.mul_le_mul_right _ hge).trans (Nat.le_add_left _ _)
    · intro hge
      by_contra hcon
      have hmul := Nat.mul_le_mul_right (2 ^ (8 * n)) (show (buf.getD n 0).toNat + 1 ≤ 128 by omega)
      rw [Nat.add_mul] at hmul
      omega
  have hshaped : (MpInt.mk (if buf.getD n 0 >>> 7 = 1 then .neg else .zpos) a.used a.dp).Shaped :=
    ⟨hvalid.used_le, hvalid.digit_lt, hvalid.digit_zero⟩
  obtain ⟨b, hset, hb, hbint⟩ := mpxSetBit_zero hshaped hlt (by omega)
  refine ⟨b, ?_, hb, ?_⟩
  · have hindex : toCInt ((n + 1) * 8 - 1) = (8 * n + 7 : ℕ) := by
      rw [mpMaxDigitCount, mpDigitBit] at hmax
      rw [show (n + 1) * 8 - 1 = 8 * n + 7 by omega, toCInt_of_lt (by omega)]
    rw [mpxDeserialize, hread, hn, Nat.add_sub_cancel, hget, hindex]
    exact hset
  · rw [hbint, ← hmag]
    simp only [hsign]
    rfl

theorem add_bit_mod {v m s : ℕ} (hv : v < 2 ^ m) : (v + s * 2 ^ m) % 2 ^ m = v := by
  rw [Nat.add_mul_mod_self_right, Nat.mod_eq_of_lt hv]

/-- The bytes of a serialized number. -/
def serialized (num : MpInt) : List Byte :=
  bytesOf .little (mpxSerializeSize num)
    (num.mag + signBit num * 2 ^ (8 * mpxSerializeSize num - 1))

theorem mpxDeserialize_serialized {x num : MpInt} (hx : x.Valid) (hnum : num.Shaped)
    (hsize : x.mag.size < mpDigitBit * mpMaxDigitCount) :
    ∃ a, mpxDeserialize num (serialized x) = .ok a ∧ a.Valid ∧ a.toInt = x.toInt := by
  have htotal := mpxSerializeSize_eq hx
  obtain ⟨n, hn⟩ : ∃ n, mpxSerializeSize x = n + 1 := ⟨_, htotal⟩
  have hlt : x.mag < 2 ^ (8 * n + 7) := Nat.size_le.mp (by omega)
  have hfit : x.mag + signBit x * 2 ^ (8 * n + 7) < 2 ^ (8 * (n + 1)) := by
    have hbit : signBit x ≤ 1 := by rw [signBit]; split <;> omega
    have hmul := Nat.mul_le_mul_right (2 ^ (8 * n + 7)) hbit
    have hpow : 2 ^ (8 * (n + 1)) = 2 ^ (8 * n + 7) * 2 := pow_succ 2 (8 * n + 7)
    omega
  have hmax : 8 * (n + 1) ≤ mpDigitBit * mpMaxDigitCount := by
    rw [mpMaxDigitCount, mpDigitBit] at *
    omega
  obtain ⟨a, ha, hvalid, hint⟩ := mpxDeserialize_spec hnum
    (length_bytesOf .little (n + 1) (x.mag + signBit x * 2 ^ (8 * n + 7))) hmax
  rw [serialized, hn, show 8 * (n + 1) - 1 = 8 * n + 7 by omega]
  refine ⟨a, ha, hvalid, ?_⟩
  rw [hint, bytesValue_bytesOf, Nat.mod_eq_of_lt hfit, add_bit_mod hlt, MpInt.toInt]
  cases hsign : x.sign with
  | zpos => rw [signBit, hsign, if_neg (by simpa using hlt)]
  | neg => rw [signBit, hsign, if_pos (by simp)]

theorem mpxDeserialize_minusZero {num : MpInt} (hnum : num.Shaped) {n : ℕ}
    (hmax : 8 * (n + 1) ≤ mpDigitBit * mpMaxDigitCount) :
    ∃ a, mpxDeserialize num (List.replicate n 0 ++ [0x80]) = .ok a ∧ a.Valid ∧ a.used = 0 ∧
      a.sign = .zpos := by
  have hlen : (List.replicate n (0 : Byte) ++ [0x80]).length = n + 1 := by simp
  obtain ⟨a, ha, hvalid, hint⟩ := mpxDeserialize_spec hnum hlen hmax
  have hvalue : bytesValue .little (n + 1) (List.replicate n (0 : Byte) ++ [0x80]) =
      0 + 1 * 2 ^ (8 * n + 7) := by
    rw [bytesValue, value_succ, value_eq_of_zero (Nat.zero_le n), pow_add]
    · simp only [byteAt, byteIndex]
      simp [Nat.mul_comm]
    · intro i _ hi
      simp only [byteAt, byteIndex]
      rw [List.getD_eq_getElem?_getD, List.getElem?_append_left (by simpa using hi)]
      simp [hi]
  rw [hvalue, add_bit_mod (Nat.two_pow_pos _)] at hint
  refine ⟨a, ha, hvalid, hvalid.eq_zero ?_⟩
  rw [hint]
  split <;> rfl

/-- **Round trip.** A number is written into as many bytes as its size says, into any buffer that
has them and into no other bytes of it; the check of the size never fails. Reading the bytes gives
the number, whatever the destination was before, if the number has fewer bits than the longest array
has. Bytes that hold minus zero give the canonical zero, if such an array has bits for them. -/
theorem mpxSerialize_roundTrip (x dest : ValidMpInt) :
    (∃ bytes : List Byte, bytes.length = mpxSerializeSize x.1 ∧
      (∀ buf : List Byte, bytes.length ≤ buf.length →
        mpxSerialize x.1 buf = .ok (bytes ++ buf.drop bytes.length, bytes.length)) ∧
      (x.1.mag.size < mpDigitBit * mpMaxDigitCount →
        ∃ y : ValidMpInt, mpxDeserialize dest.1 bytes = .ok y.1 ∧ y.1.toInt = x.1.toInt)) ∧
    ∀ n, 8 * (n + 1) ≤ mpDigitBit * mpMaxDigitCount → ∃ y : ValidMpInt,
      mpxDeserialize dest.1 (List.replicate n 0 ++ [0x80]) = .ok y.1 ∧
        y.1.used = 0 ∧ y.1.sign = .zpos := by
  refine ⟨⟨serialized x.1, length_bytesOf _ _ _, fun buf hbuf => ?_, fun hsize => ?_⟩,
    fun n hn => ?_⟩
  · rw [serialized, length_bytesOf] at hbuf ⊢
    exact mpxSerialize_spec x.2 hbuf
  · obtain ⟨a, ha, hvalid, hint⟩ := mpxDeserialize_serialized x.2 dest.2.toShaped hsize
    exact ⟨⟨a, hvalid⟩, ha, hint⟩
  · obtain ⟨a, ha, hvalid, hzero⟩ := mpxDeserialize_minusZero dest.2.toShaped hn
    exact ⟨⟨a, hvalid⟩, ha, hzero⟩

/-- Minus two is read back, and minus zero in four bytes. -/
theorem mpxSerialize_roundTrip_minusTwo :
    (∃ (bytes : List Byte) (y : ValidMpInt), bytes.length = 1 ∧
      mpxDeserialize minusTwo.1 bytes = .ok y.1 ∧ y.1.toInt = -2) ∧
    ∃ y : ValidMpInt, mpxDeserialize minusTwo.1 [0, 0, 0, 0x80] = .ok y.1 ∧ y.1.used = 0 := by
  obtain ⟨⟨bytes, hlength, -, hread⟩, hzero⟩ := mpxSerialize_roundTrip minusTwo minusTwo
  have hmag : minusTwo.1.mag = 2 := by decide
  have hsize : minusTwo.1.mag.size ≤ 2 := Nat.size_le.mpr (by rw [hmag]; decide)
  obtain ⟨y, hy, hvalue⟩ := hread (hsize.trans_lt (by decide))
  obtain ⟨z, hz, hused, -⟩ := hzero 3 (by decide)
  exact ⟨⟨bytes, y, hlength.trans (by decide), hy, hvalue⟩, z, hz, hused⟩

/-- **The largest numbers** of libtommath: all bits of the longest array are in use. -/
def topBit (n : ℕ) : MpInt := ⟨.zpos, n + 1, List.replicate n 0 ++ [2 ^ (mpDigitBit - 1)]⟩

theorem digit_topBit (n i : ℕ) :
    (topBit n).digit i = if i = n then 2 ^ (mpDigitBit - 1) else 0 := by
  rw [MpInt.digit, topBit, List.getD_eq_getElem?_getD]
  split
  · next h => rw [h, List.getElem?_append_right (by simp), List.length_replicate, Nat.sub_self]; rfl
  · next h =>
    by_cases hi : i < n
    · rw [List.getElem?_append_left (by simpa using hi), List.getElem?_replicate_of_lt hi]
      rfl
    · rw [List.getElem?_eq_none (by simp; omega)]
      rfl

theorem valid_topBit (n : ℕ) : (topBit n).Valid := by
  have hlt : 2 ^ (mpDigitBit - 1) < 2 ^ mpDigitBit := by decide
  refine ⟨⟨by simp [topBit], fun i => ?_, fun i hi => ?_⟩, fun _ => ?_, nofun⟩
  · rw [digit_topBit]
    split
    · exact hlt
    · exact Nat.two_pow_pos _
  · rw [digit_topBit, if_neg]
    rintro rfl
    exact absurd hi (Nat.not_succ_le_self _)
  · rw [digit_topBit, if_pos (by rw [topBit]; rfl)]
    exact (Nat.two_pow_pos _).ne'

theorem mag_topBit (n : ℕ) : (topBit n).mag = 2 ^ (mpDigitBit * (n + 1) - 1) := by
  rw [MpInt.mag, show (topBit n).used = n + 1 from rfl, value_succ,
    value_eq_of_zero (Nat.zero_le n) fun i _ hi => by rw [digit_topBit, if_neg hi.ne],
    digit_topBit, if_pos rfl, value_zero, Nat.zero_add, ← pow_add]
  congr 1
  rw [mpDigitBit]
  omega

/-- **`2 ^ 2147483639`** is written into `2 ^ 28` bytes, which need one digit more than an array may
have: the exponent is that of the highest bit of the longest array. -/
theorem mpxDeserialize_largest :
    ∃ (x dest : ValidMpInt) (buf bytes : List Byte),
      x.1.toInt = 2 ^ (mpDigitBit * mpMaxDigitCount - 1) ∧ x.1.dp.length = mpMaxDigitCount ∧
      mpxSerialize x.1 buf = .ok (bytes, 2 ^ 28) ∧
      mpxDeserialize dest.1 bytes =
        .error (.enforceNotMet "(mp_grow(num, total_digits)) == MP_OKAY" "-6 vs 0") := by
  -- the large numbers are only known by these equations
  obtain ⟨n, hn⟩ : ∃ n, n + 1 = mpMaxDigitCount := ⟨mpMaxDigitCount - 1, by decide⟩
  obtain ⟨m, hm⟩ : ∃ m, m = 2 ^ 28 := ⟨_, rfl⟩
  obtain ⟨k, hk⟩ : ∃ k, mpDigitBit * mpMaxDigitCount - 1 = k := ⟨_, rfl⟩
  have hmag := mag_topBit n
  rw [hn, hk] at hmag
  have hsize : mpxSerializeSize (topBit n) = m := by
    rw [mpxSerializeSize_eq (valid_topBit n), hmag, Nat.size_pow, hm, ← hk]
    decide
  obtain ⟨bytes, hwrite, hbytes⟩ : ∃ bytes,
      mpxSerialize (topBit n) (List.replicate m 0) = .ok (bytes, m) ∧ bytes.length = m := by
    refine ⟨_, by rw [mpxSerialize_spec (valid_topBit n) (by rw [hsize, List.length_replicate]),
      hsize], ?_⟩
    rw [List.length_append, length_bytesOf, List.length_drop, List.length_replicate, Nat.sub_self,
      Nat.add_zero]
  rw [hm] at hwrite hbytes
  refine ⟨⟨topBit n, valid_topBit n⟩, minusTwo, _, bytes, ?_, ?_, hwrite, ?_⟩
  · rw [MpInt.toInt, hmag, hk]
    exact Nat.cast_pow 2 k
  · rw [← hn]
    simp [topBit]
  · rw [mpxDeserialize, enforce_bind (by rw [hbytes]; decide),
      mpxFromMagBytes_ovf hbytes (by decide)]
    rfl

end Yacl.Math
