import Yacl.Math.MpInt
import Yacl.Math.MpIntBytes

/-!
# Fixed-base exponentiation

The model of `MontgomerySpace` (`yacl/math/mpint/montgomery_math.cc`): a number `y` modulo an odd
`m` is represented by `y * R`, where `R` is a power of two above `m`, and powers of a fixed base
come from a table. The table has one level for each window of the exponent, with the powers of
`base ^ 2 ^ (w * level)` from one up to `2 ^ w - 1` (`makeBaseTable_ok`).

The windows of `PowMod` do not end with the digits of the exponent. The bits of a digit that do not
fill a window are kept in `e_unit` and completed from the next digit; this is the bit cache of
`Radix.Cache`, split over `e_unit` and the digit (`PowState.Inv`). The digits of the exponent are
those of its representation, and the other numbers are integers.

The functions of libtommath for Montgomery's representation are parameters, which are assumed to be
correct: `MontgomeryLib.Correct`.
-/

open Loop Radix

namespace Yacl.Math

/-! ### The functions of libtommath -/

/-- The functions of libtommath that the class calls. -/
structure MontgomeryLib where
  /-- `mp_montgomery_setup`. -/
  setup : MPInt → ℕ
  /-- `mp_montgomery_calc_normalization`. -/
  calcNormalization : MPInt → MPInt
  /-- `mp_montgomery_reduce`. -/
  reduce : MPInt → MPInt → ℕ → MPInt

/-- The factor `R` for a modulus: a one behind all digits of the modulus. -/
def montgomeryR (m : ℕ) : ℕ := 2 ^ (mpDigitBit * ((m.size + mpDigitBit - 1) / mpDigitBit))

/-- The functions are correct for odd moduli, the reduction for numbers below `m * R`. -/
structure MontgomeryLib.Correct (lib : MontgomeryLib) : Prop where
  calcNormalization_eq : ∀ m : ℕ, Odd m → 1 < m → lib.calcNormalization m = montgomeryR m % m
  reduce_nonneg : ∀ (m : ℕ) (x : MPInt), Odd m → 1 < m → 0 ≤ x → x < m * montgomeryR m →
    0 ≤ lib.reduce x m (lib.setup m)
  reduce_lt : ∀ (m : ℕ) (x : MPInt), Odd m → 1 < m → 0 ≤ x → x < m * montgomeryR m →
    lib.reduce x m (lib.setup m) < m
  reduce_mul : ∀ (m : ℕ) (x : MPInt), Odd m → 1 < m → 0 ≤ x → x < m * montgomeryR m →
    (lib.reduce x m (lib.setup m) * montgomeryR m : ZMod m) = x

/-! ### The class -/

/-- `MontgomerySpace`. -/
structure MontgomerySpace where
  mod : MPInt
  mp : ℕ
  identity : MPInt

/-- `BaseTable`. -/
structure BaseTable where
  expUnitBits : ℕ
  expUnitExpand : ℕ
  expUnitMask : ℕ
  expMaxBits : ℕ
  stair : List MPInt

namespace MontgomerySpace

variable (lib : MontgomeryLib)

/-- The constructor of `MontgomerySpace`. -/
def make (mod : MPInt) : Except Exception MontgomerySpace := do
  enforce (¬mod < 0 ∧ mod % 2 = 1) "!mod.IsNegative() && mod.IsOdd()"
    "modulus must be a positive odd number"
  pure { mod := mod, mp := lib.setup mod, identity := lib.calcNormalization mod }

/-- `MapBackToZSpace`. -/
def mapBackToZSpace (s : MontgomerySpace) (x : MPInt) : MPInt := lib.reduce x s.mod s.mp

/-- `MulMod`. -/
def mulMod (s : MontgomerySpace) (a b : MPInt) : MPInt := lib.reduce (a * b) s.mod s.mp

/-- The body of the inner loop of `MakeBaseTable`, with the variables `stair` and `now`. -/
def pushPower (s : MontgomerySpace) (levelBase : MPInt) (t : List MPInt × MPInt) :
    List MPInt × MPInt :=
  (t.1 ++ [t.2], s.mulMod lib t.2 levelBase)

/-- The body of the outer loop of `MakeBaseTable`. -/
def pushLevel (s : MontgomerySpace) (expUnitExpand : ℕ) (t : List MPInt × MPInt) :
    List MPInt × MPInt :=
  let levelBase := t.2
  iterLoop (expUnitExpand - 1) (fun _ t => s.pushPower lib levelBase t) t

/-- `MakeBaseTable`. The shift `1U << unit_bits` is undefined from `32` bits on. -/
def makeBaseTable (s : MontgomerySpace) (base : MPInt) (unitBits maxExpBits : ℕ) :
    Except Exception BaseTable := do
  enforce (¬base < 0) "!base.IsNegative()" "Cache table: base number must be zero or positive"
  enforce (0 < unitBits) "unit_bits > 0" "Cache table: unit_bits must > 0"
  definedIf (unitBits < 32)
  let expUnitExpand := 2 ^ unitBits
  let expUnitMask := expUnitExpand - 1
  let maxExpStairs := (maxExpBits + unitBits - 1) % 2 ^ 64 / unitBits
  let expMaxBits := maxExpStairs * unitBits
  let now ← mpMod (base * s.identity) s.mod
    "mp_mulmod(&base.n_, &identity_.n_, &mod_.n_, &now.n_)"
  let (stair, _) := iterLoop maxExpStairs (fun _ t => s.pushLevel lib expUnitExpand t) ([], now)
  pure { expUnitBits := unitBits, expUnitExpand := expUnitExpand, expUnitMask := expUnitMask,
         expMaxBits := expMaxBits, stair := stair }

/-- The variables of the loop of `PowMod`. -/
structure PowState where
  out : MPInt
  level : ℕ
  eUnit : ℕ
  unitStartBits : ℕ

/-- `if (e_unit > 0) MulMod(*out, base.stair[level + e_unit - 1], out)`. -/
def mulUnit (s : MontgomerySpace) (base : BaseTable) (out : MPInt) (level eUnit : ℕ) :
    Except Exception MPInt :=
  if 0 < eUnit then s.mulMod lib out <$> vecGet base.stair (level + eUnit - 1) else pure out

/-- The body of the loop over the windows inside a digit, with the digit. -/
def powWindow (s : MontgomerySpace) (base : BaseTable) (t : PowState × ℕ) :
    Except Exception (PowState × ℕ) := do
  let eUnit := t.2 &&& base.expUnitMask
  let out ← s.mulUnit lib base t.1.out t.1.level eUnit
  pure ({ out := out, level := t.1.level + (base.expUnitExpand - 1), eUnit := eUnit,
          unitStartBits := t.1.unitStartBits + base.expUnitBits }, t.2 >>> base.expUnitBits)

/-- The remnant of the digit before, completed from the digit. -/
def powRemnant (s : MontgomerySpace) (base : BaseTable) (digit : ℕ) (t : PowState) :
    Except Exception (PowState × ℕ) :=
  let dropBits := base.expUnitBits - t.unitStartBits
  if 0 < t.unitStartBits then do
    let eUnit := t.eUnit ||| ((digit <<< dropBits) % 2 ^ 64 &&& base.expUnitMask)
    let out ← s.mulUnit lib base t.out t.level eUnit
    pure ({ t with out := out, level := t.level + (base.expUnitExpand - 1), eUnit := eUnit },
      digit >>> t.unitStartBits)
  else pure (t, digit)

/-- The body of the loop of `PowMod`. -/
def powDigit (s : MontgomerySpace) (base : BaseTable) (e : MpInt) (digitIdx : ℕ) (t : PowState) :
    Except Exception PowState := do
  let digit ← vecGet e.dp digitIdx
  let t ← s.powRemnant lib base digit t
  let (t, digit) ← whileLoop .nonTermination
    (fun t : PowState × ℕ => t.1.unitStartBits ≤ mpDigitBit - base.expUnitBits)
    (s.powWindow lib base) mpDigitBit t
  let unitStartBits := if t.unitStartBits = mpDigitBit then 0
    else t.unitStartBits + base.expUnitBits - mpDigitBit
  pure { t with unitStartBits := unitStartBits, eUnit := digit }

/-- `PowMod`. The result is returned, so it is never the variable of the exponent. -/
def powMod (s : MontgomerySpace) (base : BaseTable) (e : MpInt) : Except Exception MPInt := do
  enforce (e.sign ≠ .neg ∧ mpxCountBitsFast e ≤ base.expMaxBits)
    "!e.IsNegative() && e.BitCount() <= base.exp_max_bits"
    s!"exponent is too big, max_allowed={base.expMaxBits}, real_exp={mpxCountBitsFast e}"
  let t ← forLoop e.used (s.powDigit lib base e)
    { out := s.identity, level := 0, eUnit := 0, unitStartBits := 0 }
  if 0 < t.unitStartBits then s.mulUnit lib base t.out t.level t.eUnit else pure t.out

/-! ### Montgomery's representation -/

theorem lt_montgomeryR (m : ℕ) : m < montgomeryR m := by
  refine Nat.size_le.mp ?_
  rw [mpDigitBit]
  omega

theorem isUnit_montgomeryR {m : ℕ} (hodd : Odd m) : IsUnit (montgomeryR m : ZMod m) := by
  rw [ZMod.isUnit_iff_coprime]
  exact Nat.Coprime.pow_left _ (Nat.coprime_two_left.mpr hodd)

/-- The number `v` represents `y`. -/
structure InMSpace (m : ℕ) (v : MPInt) (y : ZMod m) : Prop where
  nonneg : 0 ≤ v
  lt : v < m
  eq : (v : ZMod m) = y * montgomeryR m

section Space

variable {lib} {m : ℕ} (hlib : lib.Correct) (hodd : Odd m) (hm : 1 < m)
include hlib hodd hm

theorem make_eq : make lib m = .ok ⟨m, lib.setup m, montgomeryR m % m⟩ := by
  have hcheck : ¬(m : ℤ) < 0 ∧ (m : ℤ) % 2 = 1 := by
    have := Nat.odd_iff.mp hodd
    omega
  rw [make, enforce_of_pos hcheck, hlib.calcNormalization_eq m hodd hm]
  rfl

omit hlib hodd in
theorem inMSpace_identity : InMSpace m (montgomeryR m % m) 1 where
  nonneg := Int.emod_nonneg _ (by omega)
  lt := Int.emod_lt_of_pos _ (by omega)
  eq := by rw [one_mul]; simp

/-- **Products** of representations. -/
theorem InMSpace.mulMod {a b : MPInt} {y z : ZMod m} (ha : InMSpace m a y) (hb : InMSpace m b z)
    (identity : MPInt) :
    InMSpace m (MontgomerySpace.mulMod lib ⟨m, lib.setup m, identity⟩ a b) (y * z) := by
  have hnonneg : 0 ≤ a * b := Int.mul_nonneg ha.nonneg hb.nonneg
  have hlt : a * b < m * montgomeryR m := by
    have hR : (m : ℤ) < montgomeryR m := by exact_mod_cast lt_montgomeryR m
    calc a * b ≤ m * b := Int.mul_le_mul_of_nonneg_right ha.lt.le hb.nonneg
      _ < m * montgomeryR m := by
        refine Int.mul_lt_mul_of_pos_left (hb.lt.trans hR) (by omega)
  refine ⟨hlib.reduce_nonneg m _ hodd hm hnonneg hlt, hlib.reduce_lt m _ hodd hm hnonneg hlt, ?_⟩
  refine (isUnit_montgomeryR hodd).mul_right_cancel ?_
  have hmul := hlib.reduce_mul m _ hodd hm hnonneg hlt
  rw [MontgomerySpace.mulMod, hmul]
  push_cast
  rw [ha.eq, hb.eq]
  ring

/-- **Back to the integers.** -/
theorem InMSpace.mapBackToZSpace {v : MPInt} {y : ℕ} (h : InMSpace m v (y : ZMod m))
    (identity : MPInt) :
    MontgomerySpace.mapBackToZSpace lib ⟨m, lib.setup m, identity⟩ v = (y % m : ℕ) := by
  have hlt : v < m * montgomeryR m := by
    have hR : (1 : ℤ) ≤ montgomeryR m := by exact_mod_cast Nat.one_le_two_pow
    calc v < m := h.lt
      _ = m * 1 := (Int.mul_one _).symm
      _ ≤ m * montgomeryR m := Int.mul_le_mul_of_nonneg_left hR (by omega)
  have hnonneg := hlib.reduce_nonneg m v hodd hm h.nonneg hlt
  have hless := hlib.reduce_lt m v hodd hm h.nonneg hlt
  have heq : ((lib.reduce v m (lib.setup m) : ℤ) : ZMod m) = ((y : ℤ) : ZMod m) := by
    refine (isUnit_montgomeryR hodd).mul_right_cancel ?_
    rw [hlib.reduce_mul m v hodd hm h.nonneg hlt, h.eq]
    simp
  rw [ZMod.intCast_eq_intCast_iff] at heq
  rw [MontgomerySpace.mapBackToZSpace, ← Int.emod_eq_of_lt hnonneg hless, heq]
  simp

end Space

/-! ### The table -/

/-- The exponent of entry `i` of the table, for windows of `w` bits. -/
def stairExponent (w i : ℕ) : ℕ := (i % (2 ^ w - 1) + 1) * 2 ^ (w * (i / (2 ^ w - 1)))

theorem stairExponent_eq {w u k : ℕ} (hk : k < 2 ^ w - 1) :
    stairExponent w (u * (2 ^ w - 1) + k) = (k + 1) * 2 ^ (w * u) := by
  rw [stairExponent, Nat.mul_comm u, Nat.mul_add_mod, Nat.mod_eq_of_lt hk,
    Nat.mul_add_div (by omega), Nat.div_eq_of_lt hk]
  rfl

/-- The first `n` entries of the table. -/
structure StairOk (m base w : ℕ) (stair : List MPInt) (n : ℕ) : Prop where
  length_eq : stair.length = n
  entry : ∀ i < n, ∃ v, stair[i]? = some v ∧ InMSpace m v ((base : ZMod m) ^ stairExponent w i)

theorem StairOk.push {m base w n : ℕ} {stair : List MPInt} (h : StairOk m base w stair n)
    {v : MPInt} (hv : InMSpace m v ((base : ZMod m) ^ stairExponent w n)) :
    StairOk m base w (stair ++ [v]) (n + 1) := by
  refine ⟨by rw [List.length_append, h.length_eq]; rfl, fun i hi => ?_⟩
  rcases Nat.lt_succ_iff_lt_or_eq.mp hi with hlt | rfl
  · obtain ⟨x, hx, hmem⟩ := h.entry i hlt
    exact ⟨x, by rw [List.getElem?_append_left (by rw [h.length_eq]; exact hlt), hx], hmem⟩
  · exact ⟨v, by rw [List.getElem?_append_right h.length_eq.le, h.length_eq]; simp, hv⟩

section Table

variable {lib} {m : ℕ} (hlib : lib.Correct) (hodd : Odd m) (hm : 1 < m) {base w : ℕ}
include hlib hodd hm

/-- **One level** of the table. -/
theorem pushLevel_ok {u : ℕ} {t : List MPInt × MPInt} (identity : MPInt)
    (hstair : StairOk m base w t.1 (u * (2 ^ w - 1)))
    (hnow : InMSpace m t.2 ((base : ZMod m) ^ 2 ^ (w * u))) :
    StairOk m base w (pushLevel lib ⟨m, lib.setup m, identity⟩ (2 ^ w) t).1
        ((u + 1) * (2 ^ w - 1)) ∧
      InMSpace m (pushLevel lib ⟨m, lib.setup m, identity⟩ (2 ^ w) t).2
        ((base : ZMod m) ^ 2 ^ (w * (u + 1))) := by
  have hinv := iterLoop_inv
    (f := fun _ s => pushPower lib ⟨m, lib.setup m, identity⟩ t.2 s)
    (fun k s => StairOk m base w s.1 (u * (2 ^ w - 1) + k) ∧
      InMSpace m s.2 ((base : ZMod m) ^ ((k + 1) * 2 ^ (w * u))))
    ⟨hstair, by rwa [Nat.zero_add, Nat.one_mul]⟩ fun k hk s ⟨hs, hnow'⟩ => by
      refine ⟨hs.push (by rw [stairExponent_eq hk]; exact hnow'), ?_⟩
      have hmul := hnow'.mulMod hlib hodd hm hnow identity
      rwa [← pow_add, ← Nat.succ_mul] at hmul
  have hpow : (2 ^ w - 1 + 1) * 2 ^ (w * u) = 2 ^ (w * (u + 1)) := by
    rw [Nat.sub_add_cancel Nat.one_le_two_pow, ← pow_add, Nat.mul_succ, Nat.add_comm]
  rw [hpow, ← Nat.succ_mul] at hinv
  exact hinv

/-- **The table** has the powers of the base for every window. -/
theorem makeBaseTable_ok (hw : 0 < w) (hw' : w < 32) (maxExpBits : ℕ) :
    ∃ table, makeBaseTable lib ⟨m, lib.setup m, montgomeryR m % m⟩ base w maxExpBits = .ok table ∧
      table.expUnitBits = w ∧ table.expUnitExpand = 2 ^ w ∧ table.expUnitMask = 2 ^ w - 1 ∧
      ∃ stairs, table.expMaxBits = stairs * w ∧
        StairOk m base w table.stair (stairs * (2 ^ w - 1)) := by
  have hbase : InMSpace m ((base * (montgomeryR m % m) : ℤ) % m) ((base : ZMod m) ^ 2 ^ (w * 0)) :=
    ⟨Int.emod_nonneg _ (by omega), Int.emod_lt_of_pos _ (by omega), by simp⟩
  have hinv := iterLoop_inv (n := (maxExpBits + w - 1) % 2 ^ 64 / w)
    (f := fun _ t => pushLevel lib ⟨m, lib.setup m, montgomeryR m % m⟩ (2 ^ w) t)
    (s := ([], (base * (montgomeryR m % m) : ℤ) % m))
    (fun u t => StairOk m base w t.1 (u * (2 ^ w - 1)) ∧
      InMSpace m t.2 ((base : ZMod m) ^ 2 ^ (w * u)))
    ⟨⟨by simp, fun i hi => absurd hi (by omega)⟩, hbase⟩
    fun u _ t ⟨hstair, hnow⟩ => pushLevel_ok hlib hodd hm _ hstair hnow
  generalize hloop : iterLoop _ _ _ = t at hinv
  refine ⟨⟨w, 2 ^ w, 2 ^ w - 1, (maxExpBits + w - 1) % 2 ^ 64 / w * w, t.1⟩, ?_, rfl, rfl, rfl, _,
    rfl, hinv.1⟩
  rw [makeBaseTable, enforce_bind hw, definedIf_bind hw', mpMod_eq (by omega), ok_bind, hloop]
  rfl

end Table

/-! ### Powers -/

/-- The invariant of the loop of `PowMod` before digit `i`: the windows below bit `w * u` of the
exponent were multiplied, and `e_unit` has the `rem` bits above them. -/
def PowState.Inv (m base w : ℕ) (e : MpInt) (i : ℕ) (t : PowState) : Prop :=
  ∃ u P rem, Cache (mpDigitBit * i) (value mpDigitBit i e.digit) (w * u) P t.eUnit rem ∧ rem < w ∧
    t.unitStartBits = (if rem = 0 then 0 else w - rem) ∧ t.level = u * (2 ^ w - 1) ∧
    InMSpace m t.out ((base : ZMod m) ^ P)

/-- The invariant of the loop over the windows inside digit `i`, where the digit is the cache. -/
def PowState.WindowInv (m base w : ℕ) (e : MpInt) (i : ℕ) (t : PowState × ℕ) : Prop :=
  ∃ u P, Cache (mpDigitBit * (i + 1)) (value mpDigitBit (i + 1) e.digit) (w * u) P t.2
      (mpDigitBit - t.1.unitStartBits) ∧ t.1.unitStartBits ≤ mpDigitBit ∧
    t.1.level = u * (2 ^ w - 1) ∧ InMSpace m t.1.out ((base : ZMod m) ^ P)

section Power

variable {lib} {m : ℕ} (hlib : lib.Correct) (hodd : Odd m) (hm : 1 < m) {base w stairs : ℕ}
  {table : BaseTable} (hstair : StairOk m base w table.stair (stairs * (2 ^ w - 1)))
  (identity : MPInt)
include hlib hodd hm hstair

/-- **One window.** Its place is in the table as long as the exponent has a bit there. -/
theorem mulUnit_ok {out : MPInt} {u P eUnit : ℕ} (hunit : eUnit < 2 ^ w)
    (hlevel : 0 < eUnit → u < stairs) (hout : InMSpace m out ((base : ZMod m) ^ P)) :
    ∃ out', mulUnit lib ⟨m, lib.setup m, identity⟩ table out (u * (2 ^ w - 1)) eUnit = .ok out' ∧
      InMSpace m out' ((base : ZMod m) ^ (P + eUnit * 2 ^ (w * u))) := by
  rw [mulUnit]
  split
  · next hpos =>
    obtain ⟨k, rfl⟩ := Nat.exists_eq_succ_of_ne_zero hpos.ne'
    have hk : k < 2 ^ w - 1 := by omega
    have hindex : u * (2 ^ w - 1) + k < stairs * (2 ^ w - 1) := by
      have := Nat.mul_le_mul_right (2 ^ w - 1) (Nat.succ_le_of_lt (hlevel hpos))
      rw [Nat.succ_mul] at this
      omega
    obtain ⟨v, hv, hmem⟩ := hstair.entry _ hindex
    rw [stairExponent_eq hk] at hmem
    have hmul := hout.mulMod hlib hodd hm hmem identity
    rw [← pow_add] at hmul
    exact ⟨_, by rw [Nat.add_succ_sub_one, vecGet_of_getElem? hv]; rfl, hmul⟩
  · next hpos =>
    obtain rfl : eUnit = 0 := by omega
    exact ⟨out, rfl, by rwa [Nat.zero_mul, Nat.add_zero]⟩

variable (hbits : table.expUnitBits = w) (hexpand : table.expUnitExpand = 2 ^ w)
  (hmask : table.expUnitMask = 2 ^ w - 1) (hw : 0 < w) (hw' : w < 32) {e : MpInt}
  (he : e.Shaped) (hfit : e.mag.size ≤ stairs * w)
include hbits hexpand hmask hw hw' he hfit

omit hlib hodd hm hstair hbits hexpand hmask hw hw' in
theorem level_lt {i u P c rem total : ℕ}
    (hcache : Cache total (value mpDigitBit i e.digit) (w * u) P c rem) (hc : 0 < c) :
    u < stairs := by
  have hle : value mpDigitBit i e.digit ≤ e.mag := by
    rw [← MpInt.value_digit_of_le he (Nat.le_add_left e.used i), value_add]
    exact Nat.le_add_right _ _
  have hge : 2 ^ (w * u) ≤ e.mag := by
    refine le_trans ?_ hle
    rw [hcache.value_eq]
    exact (Nat.le_mul_of_pos_left _ hc).trans (Nat.le_add_left _ _)
  have hsize := Nat.lt_size.mpr hge
  refine Nat.lt_of_mul_lt_mul_left (a := w) ?_
  rw [Nat.mul_comm w stairs]
  omega

/-- The remnant and the digit together are the cache, from which the first window is taken. -/
theorem powRemnant_ok {i : ℕ} {t : PowState} (h : t.Inv m base w e i) :
    ∃ t', powRemnant lib ⟨m, lib.setup m, identity⟩ table (e.digit i) t = .ok t' ∧
      PowState.WindowInv m base w e i t' := by
  obtain ⟨u, P, rem, hcache, hrem, hstart, hlevel, hout⟩ := h
  have hfeed := hcache.feed (he.digit_lt i)
  rw [← value_succ] at hfeed
  rw [powRemnant]
  dsimp only
  by_cases hzero : rem = 0
  · -- the digit begins with a window
    subst hzero
    rw [if_pos rfl] at hstart
    have hunit : t.eUnit = 0 := by
      have := hcache.lt
      omega
    rw [hunit, Nat.zero_or] at hfeed
    rw [if_neg (by omega)]
    exact ⟨_, rfl, u, P, by rw [hstart]; exact hfeed, by rw [hstart]; exact Nat.zero_le _, hlevel,
      hout⟩
  · rw [if_neg hzero] at hstart
    have hshift : t.eUnit ||| ((e.digit i <<< (w - t.unitStartBits)) % 2 ^ 64 &&& (2 ^ w - 1)) =
        (t.eUnit ||| e.digit i <<< rem) % 2 ^ w := by
      have hdvd : 2 ^ w ∣ 2 ^ 64 := Nat.pow_dvd_pow 2 (by omega)
      have hlt : t.eUnit < 2 ^ w := hcache.lt.trans (Nat.pow_lt_pow_right (by omega) hrem)
      rw [show w - t.unitStartBits = rem by omega, Nat.and_two_pow_sub_one_eq_mod,
        Nat.mod_mod_of_dvd _ hdvd, Nat.or_mod_two_pow, Nat.mod_eq_of_lt hlt]
    have hquot : e.digit i >>> t.unitStartBits = (t.eUnit ||| e.digit i <<< rem) >>> w := by
      rw [or_shiftLeft hcache.lt, Nat.shiftRight_eq_div_pow, Nat.shiftRight_eq_div_pow,
        show w = rem + t.unitStartBits by omega, pow_add, ← Nat.div_div_eq_div_mul,
        Nat.add_mul_div_right _ _ (Nat.two_pow_pos _), Nat.div_eq_of_lt hcache.lt, Nat.zero_add]
    have hlev : 0 < (t.eUnit ||| e.digit i <<< rem) % 2 ^ w → u < stairs := fun hpos =>
      level_lt he hfit hfeed (hpos.trans_le (Nat.mod_le _ _))
    have htake := hfeed.take (show w ≤ rem + mpDigitBit by rw [mpDigitBit]; omega)
    obtain ⟨out', hmul, hout'⟩ := mulUnit_ok hlib hodd hm hstair identity
      (Nat.mod_lt _ (Nat.two_pow_pos w)) hlev hout
    rw [if_pos (by omega), hbits, hmask, hexpand, hshift, hlevel, hmul]
    refine ⟨_, rfl, u + 1, _, ?_, ?_, ?_, hout'⟩
    · rw [hquot, show mpDigitBit - t.unitStartBits = rem + mpDigitBit - w by
        rw [mpDigitBit]; omega]
      exact htake
    · dsimp only
      rw [mpDigitBit]
      omega
    · exact (Nat.succ_mul _ _).symm

theorem powWindow_ok {i : ℕ} {t : PowState × ℕ} (h : PowState.WindowInv m base w e i t)
    (hcond : t.1.unitStartBits ≤ mpDigitBit - w) :
    ∃ t', powWindow lib ⟨m, lib.setup m, identity⟩ table t = .ok t' ∧
      PowState.WindowInv m base w e i t' ∧
      mpDigitBit - t'.1.unitStartBits < mpDigitBit - t.1.unitStartBits := by
  obtain ⟨u, P, hcache, hstart, hlevel, hout⟩ := h
  have hroom : w ≤ mpDigitBit - t.1.unitStartBits := by rw [mpDigitBit] at *; omega
  have htake := hcache.take hroom
  have hlev : 0 < t.2 % 2 ^ w → u < stairs := fun hpos =>
    level_lt he hfit hcache (hpos.trans_le (Nat.mod_le _ _))
  obtain ⟨out', hmul, hout'⟩ := mulUnit_ok hlib hodd hm hstair identity
    (Nat.mod_lt t.2 (Nat.two_pow_pos w)) hlev hout
  rw [powWindow, hmask, Nat.and_two_pow_sub_one_eq_mod, hlevel, hmul, hexpand, hbits]
  refine ⟨_, rfl, ⟨u + 1, _, ?_, ?_, ?_, hout'⟩, ?_⟩
  · rw [← Nat.sub_sub]
    exact htake
  · dsimp only
    omega
  · exact (Nat.succ_mul _ _).symm
  · dsimp only
    omega

/-- **One digit** of the exponent. -/
theorem powDigit_ok {i : ℕ} (hi : i < e.used) {t : PowState} (h : t.Inv m base w e i) :
    ∃ t', powDigit lib ⟨m, lib.setup m, identity⟩ table e i t = .ok t' ∧
      t'.Inv m base w e (i + 1) := by
  obtain ⟨t₁, hremnant, hinv₁⟩ := powRemnant_ok hlib hodd hm hstair identity hbits
    hexpand hmask hw hw' he hfit h
  obtain ⟨t₂, hloop, hinv₂, hstop⟩ := whileLoop_ok Exception.nonTermination
    (fun t : PowState × ℕ => t.1.unitStartBits ≤ mpDigitBit - table.expUnitBits)
    (powWindow lib ⟨m, lib.setup m, identity⟩ table) (PowState.WindowInv m base w e i)
    (fun t => mpDigitBit - t.1.unitStartBits) (Nat.sub_le _ _) hinv₁ fun t ht hcond =>
      powWindow_ok hlib hodd hm hstair identity hbits hexpand hmask hw hw' he hfit ht
        (by rwa [← hbits])
  obtain ⟨u, P, hcache, hstart, hlevel, hout⟩ := hinv₂
  rw [powDigit, MpInt.vecGet_dp (hi.trans_le he.used_le), ok_bind, hremnant, ok_bind, hloop]
  refine ⟨_, rfl, u, P, mpDigitBit - t₂.1.unitStartBits, hcache, ?_, ?_, hlevel, hout⟩
  · omega
  · dsimp only
    split_ifs <;> omega

/-- **Powers.** -/
theorem powMod_ok (hval : e.Valid) (hsign : e.sign ≠ .neg)
    (hmax : table.expMaxBits = stairs * w) :
    ∃ out, powMod lib ⟨m, lib.setup m, montgomeryR m % m⟩ table e = .ok out ∧
      InMSpace m out ((base ^ e.mag : ℕ) : ZMod m) := by
  have hinit : (PowState.mk (montgomeryR m % m) 0 0 0).Inv m base w e 0 :=
    ⟨0, 0, 0, Cache.empty, hw, rfl, (Nat.zero_mul _).symm, by
      rw [pow_zero]; exact inMSpace_identity hm⟩
  obtain ⟨t, hloop, u, P, rem, hcache, hrem, hstart, hlevel, hout⟩ := forLoop_ok
    (fun i t => PowState.Inv m base w e i t) hinit fun i hi t ht =>
      powDigit_ok hlib hodd hm hstair (montgomeryR m % m) hbits hexpand hmask hw hw' he
        hfit hi ht
  have hunit : t.eUnit < 2 ^ w := hcache.lt.trans (Nat.pow_lt_pow_right (by omega) hrem)
  obtain ⟨out, hmul, hout'⟩ := mulUnit_ok hlib hodd hm hstair (montgomeryR m % m) hunit
    (fun hpos => level_lt he hfit hcache hpos) hout
  rw [← hcache.value_eq] at hout'
  have hcheck : e.sign ≠ .neg ∧ mpxCountBitsFast e ≤ table.expMaxBits := by
    rw [mpxCountBitsFast_eq hval, hmax]
    exact ⟨hsign, by exact_mod_cast hfit⟩
  rw [powMod, enforce_bind hcheck, hloop, ok_bind]
  split
  · rw [hlevel]
    exact ⟨out, hmul, by push_cast; exact hout'⟩
  · next hzero =>
    -- the exponent ends with a window
    have hunit0 : t.eUnit = 0 := by
      have hrem0 : rem = 0 := by
        by_contra hne
        rw [if_neg hne] at hstart
        omega
      have := hcache.lt
      rw [hrem0] at this
      omega
    rw [hunit0] at hmul
    exact ⟨out, hmul ▸ rfl, by push_cast; exact hout'⟩

end Power

theorem sign_ne_neg {e : MpInt} (he : e.Valid) (hnonneg : 0 ≤ e.toInt) : e.sign ≠ .neg := by
  intro hneg
  have hzero : e.toInt = 0 := by
    rw [MpInt.toInt, hneg, MpSign.apply] at hnonneg ⊢
    omega
  have hpos := (he.eq_zero hzero).2
  rw [hneg] at hpos
  contradiction

/-- **Fixed-base exponentiation.** For windows of at most `31` bits the table is built, and for
every exponent that fits it all accesses are inside the table and the result is the power of the
base. -/
theorem powMod_makeBaseTable (lib : MontgomeryLib) (hlib : lib.Correct) (m : ℕ) (hm : 3 ≤ m)
    (hodd : Odd m) (base w maxExpBits : ℕ) (hw : 1 ≤ w) (hw' : w ≤ 31) :
    ∃ space table, make lib m = .ok space ∧
      makeBaseTable lib space base w maxExpBits = .ok table ∧
      ∀ e : ValidMpInt, 0 ≤ e.1.toInt → mpxCountBitsFast e.1 ≤ table.expMaxBits →
        ∃ out, powMod lib space table e.1 = .ok out ∧
          mapBackToZSpace lib space out = (base ^ e.1.toInt.toNat % m : ℕ) := by
  obtain ⟨table, htable, hbits, hexpand, hmask, stairs, hmax, hstair⟩ :=
    makeBaseTable_ok hlib hodd (by omega) hw (Nat.lt_succ_of_le hw') maxExpBits
  refine ⟨_, table, make_eq hlib hodd (by omega), htable, fun e hnonneg hfit => ?_⟩
  rw [mpxCountBitsFast_eq e.2, hmax] at hfit
  obtain ⟨out, hpow, hout⟩ := powMod_ok hlib hodd (by omega) hstair hbits hexpand hmask hw
    (Nat.lt_succ_of_le hw') e.2.toShaped (by exact_mod_cast hfit) e.2 (sign_ne_neg e.2 hnonneg) hmax
  have hexp : e.1.toInt.toNat = e.1.mag := by
    rw [← MpInt.natAbs_toInt]
    omega
  exact ⟨out, hpow, by rw [hexp]; exact hout.mapBackToZSpace hlib hodd (by omega) _⟩

/-- The functions of libtommath, computed with an inverse of `R`. -/
def exactMontgomery : MontgomeryLib where
  setup m := (-Int.gcdA m (2 ^ mpDigitBit) % 2 ^ mpDigitBit).toNat
  calcNormalization m := montgomeryR m.toNat % m
  reduce x m _ := x * Int.gcdA (montgomeryR m.toNat) m % m

theorem exactMontgomery_correct : exactMontgomery.Correct where
  calcNormalization_eq m _ _ := by simp [exactMontgomery]
  reduce_nonneg m x _ hm _ _ := Int.emod_nonneg _ (by omega)
  reduce_lt m x _ hm _ _ := Int.emod_lt_of_pos _ (by omega)
  reduce_mul m x hodd hm _ _ := by
    have hgcd : Int.gcd (montgomeryR m) m = 1 :=
      Nat.Coprime.pow_left _ (Nat.coprime_two_left.mpr hodd)
    have hbezout := congrArg (Int.cast : ℤ → ZMod m) (Int.gcd_eq_gcd_ab (montgomeryR m) m)
    rw [hgcd] at hbezout
    push_cast at hbezout
    rw [ZMod.natCast_self, zero_mul, add_zero] at hbezout
    simp only [exactMontgomery, Int.toNat_natCast]
    push_cast
    rw [mul_assoc, mul_comm ((Int.gcdA _ _ : ℤ) : ZMod m), ← hbezout, mul_one]

theorem powMod_makeBaseTable_seven :
    ∃ space table, make exactMontgomery (7 : ℕ) = .ok space ∧
      makeBaseTable exactMontgomery space (3 : ℕ) 11 100 = .ok table ∧
      ∀ e : ValidMpInt, 0 ≤ e.1.toInt → mpxCountBitsFast e.1 ≤ table.expMaxBits →
        ∃ out, powMod exactMontgomery space table e.1 = .ok out ∧
          mapBackToZSpace exactMontgomery space out = (3 ^ e.1.toInt.toNat % 7 : ℕ) :=
  powMod_makeBaseTable exactMontgomery exactMontgomery_correct 7 (by decide) (by decide) 3 11 100
    (by decide) (by decide)

end MontgomerySpace

end Yacl.Math
