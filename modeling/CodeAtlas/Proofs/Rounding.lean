import CodeAtlas.Decimal.Binary
import Mathlib

/-!
# Rounding decimals to floating-point numbers

Taking a number apart loses nothing. Sign, last place and mantissa of a finite number give its bits
back, and of the others there are three: two infinite ones and one that is no number.

The arithmetic of `toFloat` is done on fractions of whole numbers. Here it is related to the
rationals: a positive rational has one last binary place to which it is rounded (`LastPlace`), and
the rationals that round to a given number form an interval around it (`RoundsTo`). The one case
that needs care is a rational just below a power of two, where rounding carries out of the last
place.

That a number is made of its bits again is a library lemma which no smaller import brings in.
-/

namespace CodeAtlas.Decimal

/-! ## Numbers and their bits

How the stored bits make up sign, exponent and mantissa. -/

section Bits

open Float.Model (Format)
open Float.Model.UnpackedFloat

theorem pow_fraction : Nat.pow 2 52 = 4503599627370496 := rfl

theorem pow_exponent : Nat.pow 2 11 = 2048 := rfl

theorem pow_sign : Nat.pow 2 63 = 9223372036854775808 := rfl

theorem parts_of_finite {x : Float} {neg : Bool} {mant : Nat} {exp : Int}
    (hx : Binary.ofFloat x = .finite neg mant exp) :
    x.toBits.toNat = (if neg then Nat.pow 2 63 else 0) + ((exp - minExp).toNat * Nat.pow 2
      52 + mant) ∧
      mant < Nat.pow 2 53 ∧ minExp ≤ exp ∧ exp ≤ 971 ∧ (exp = minExp ∨ Nat.pow 2 52 ≤ mant) := by
  have hbits := x.toBits.toNat_lt
  rw [Binary.ofFloat] at hx
  generalize x.toBits.toNat = bits at hx hbits ⊢
  have h53 : Nat.pow 2 53 = 9007199254740992 := rfl
  have hmin : minExp = -1074 := rfl
  rw [pow_fraction, pow_exponent, pow_sign] at hx
  rw [pow_fraction, h53, pow_sign, hmin]
  -- sign, exponent and fraction are quotients and remainders of the bits
  split at hx
  · split at hx <;> cases hx
  · next hfinite =>
    split at hx
    · next hzero =>
      obtain ⟨rfl, rfl, rfl⟩ := Binary.finite.inj hx
      rw [hmin]
      refine ⟨?_, by omega, by omega, by omega, .inl rfl⟩
      simp only [decide_eq_true_eq]
      split <;> omega
    · next hzero =>
      obtain ⟨rfl, rfl, rfl⟩ := Binary.finite.inj hx
      rw [hmin]
      refine ⟨?_, by omega, by omega, by omega, .inr (by omega)⟩
      simp only [decide_eq_true_eq]
      split <;> omega

theorem eq_of_infinite {x : Float} {neg : Bool} (hx : Binary.ofFloat x = .infinite neg) :
    x = if neg then -1.0 / 0.0 else 1.0 / 0.0 := by
  have hbits := x.toBits.toNat_lt
  have hparts : x.toBits = if neg then 0xFFF0000000000000 else 0x7FF0000000000000 := by
    rw [← UInt64.toNat_inj]
    rw [Binary.ofFloat] at hx
    generalize x.toBits.toNat = bits at hx hbits ⊢
    rw [pow_fraction, pow_exponent, pow_sign] at hx
    split at hx
    · next hexp =>
      split at hx
      · next hfraction =>
        obtain rfl := Binary.infinite.inj hx
        simp only [decide_eq_true_eq]
        split
        · change bits = 18442240474082181120
          omega
        · change bits = 9218868437227405312
          omega
      · cases hx
    · split at hx <;> cases hx
  rw [← Float.ofBits_toBits x, hparts]
  cases neg <;> decide +kernel

theorem toNat_unpackExponent (b : BitVec Format.binary64.numBits) :
    (unpackExponent b).toNat = b.toNat / Nat.pow 2 52 % Nat.pow 2 11 := by
  simp only [unpackExponent, BitVec.toNat_cast, BitVec.extractLsb_toNat, Nat.shiftRight_eq_div_pow]

theorem toNat_unpackMantissa (b : BitVec Format.binary64.numBits) :
    (unpackMantissa b).toNat = b.toNat % Nat.pow 2 52 := by
  simp only [unpackMantissa, BitVec.toNat_cast, BitVec.extractLsb_toNat, Nat.shiftRight_zero]

theorem eq_of_nan {x : Float} (hx : Binary.ofFloat x = .nan) : x = 0.0 / 0.0 := by
  have hvalid := x.toModel.valid
  have hbits : x.toBits = UInt64.ofBitVec (packedNaN Format.binary64) := by
    rw [Binary.ofFloat] at hx
    split at hx
    · next hexp =>
      split at hx
      · cases hx
      · next hfraction =>
        -- of all bits with a full exponent and a fraction only one pattern is used
        have hnan :=
          hvalid.eq_packedNaN (BitVec.eq_of_toNat_eq ((toNat_unpackExponent _).trans hexp))
          fun hzero => hfraction ((toNat_unpackMantissa _).symm.trans (congrArg BitVec.toNat hzero))
        rw [← hnan]
        rfl
    · split at hx <;> cases hx
  rw [← Float.ofBits_toBits x, hbits]
  decide +kernel

end Bits

def ratio (a : Nat × Nat) : ℚ :=
  a.1 / a.2

variable {base : Nat} (hbase : 0 < base) (e : Int)
include hbase

theorem power_num_pos : 0 < (power base e).1 := by
  rw [power]
  split
  · exact Nat.pow_pos hbase
  · exact Nat.one_pos

theorem power_den_pos : 0 < (power base e).2 := by
  rw [power]
  split
  · exact Nat.one_pos
  · exact Nat.pow_pos hbase

omit hbase in
theorem ratio_power : ratio (power base e) = base ^ e := by
  rw [power, ratio]
  split
  · next he =>
    obtain ⟨n, rfl⟩ := Int.eq_ofNat_of_zero_le he
    simp
  · next he =>
    obtain ⟨n, hn⟩ := Int.eq_ofNat_of_zero_le (show 0 ≤ -e by omega)
    obtain rfl : e = -n := by omega
    simp

omit hbase

theorem pow2_den_pos : 0 < (pow2 e).2 := power_den_pos two_pos e

theorem pow10_den_pos : 0 < (pow10 e).2 := power_den_pos (by decide) e

theorem ratio_pow2 : ratio (pow2 e) = 2 ^ e := by exact_mod_cast ratio_power e

theorem ratio_pow10 : ratio (pow10 e) = 10 ^ e := by exact_mod_cast ratio_power e

theorem ratio_fracMul (n : Nat) (a : Nat × Nat) : ratio (fracMul n a) = n * ratio a := by
  rw [fracMul, ratio, ratio]
  push_cast
  rw [mul_div_assoc]

variable {a : Nat × Nat} {m mant coef : Nat} {v : ℚ} {exp : Int}

theorem fracLt_iff {b : Nat × Nat} (ha : 0 < a.2) (hb : 0 < b.2) :
    fracLt a b ↔ ratio a < ratio b := by
  have ha : (0 : ℚ) < a.2 := by exact_mod_cast ha
  have hb : (0 : ℚ) < b.2 := by exact_mod_cast hb
  rw [fracLt, decide_eq_true_iff, ratio, ratio, div_lt_div_iff₀ ha hb]
  exact_mod_cast Iff.rfl

theorem ratio_log2 (hnum : 0 < a.1) (hden : 0 < a.2) :
    (2 : ℚ) ^ ((a.1.log2 : Int) - a.2.log2 - 1) < ratio a ∧ ratio a < 2 ^
    ((a.1.log2 : Int) - a.2.log2 + 1) := by
  have hnum₁ : (2 : ℚ) ^ (a.1.log2 : Int) ≤ a.1 := by exact_mod_cast Nat.log2_self_le hnum.ne'
  have hnum₂ : (a.1 : ℚ) < 2 ^ ((a.1.log2 : Int) + 1) := by exact_mod_cast Nat.lt_log2_self
  have hden₁ : (2 : ℚ) ^ (a.2.log2 : Int) ≤ a.2 := by exact_mod_cast Nat.log2_self_le hden.ne'
  have hden₂ : (a.2 : ℚ) < 2 ^ ((a.2.log2 : Int) + 1) := by exact_mod_cast Nat.lt_log2_self
  have hden : (0 : ℚ) < a.2 := by exact_mod_cast hden
  constructor
  · rw [ratio, lt_div_iff₀ hden]
    calc (2 : ℚ) ^ ((a.1.log2 : Int) - a.2.log2 - 1) * a.2
        < 2 ^ ((a.1.log2 : Int) - a.2.log2 - 1) * 2 ^ ((a.2.log2 : Int) + 1) := by gcongr
      _ = 2 ^ (a.1.log2 : Int) := by
        rw [← zpow_add₀ two_ne_zero]
        congr 1
        ring
      _ ≤ a.1 := hnum₁
  · rw [ratio, div_lt_iff₀ hden]
    calc (a.1 : ℚ) < 2 ^ ((a.1.log2 : Int) + 1) := hnum₂
      _ = 2 ^ ((a.1.log2 : Int) - a.2.log2 + 1) * 2 ^ (a.2.log2 : Int) := by
        rw [← zpow_add₀ two_ne_zero]
        congr 1
        ring
      _ ≤ 2 ^ ((a.1.log2 : Int) - a.2.log2 + 1) * a.2 := by gcongr

/-- `m` is the whole number nearest to `v`, and even if another one is as near. -/
def Nearest (v : ℚ) (m : Nat) : Prop :=
  (m - 1 / 2 < v ∧ v < m + 1 / 2) ∨ m % 2 = 0 ∧ m - 1 / 2 ≤ v ∧ v ≤ m + 1 / 2

theorem nearest_iff {num den : Nat} (hden : 0 < den) :
    Nearest (num / den) m ↔
      (2 * (den * m) < 2 * num + den ∧ 2 * num < 2 * (den * m) + den) ∨
        m % 2 = 0 ∧ 2 * (den * m) ≤ 2 * num + den ∧ 2 * num ≤ 2 * (den * m) + den := by
  have hden : (0 : ℚ) < den := by exact_mod_cast hden
  have hlt : (m - 1 / 2 < (num / den : ℚ)) ↔ 2 * (den * m) < 2 * num + den := by
    rw [lt_div_iff₀ hden, ← @Nat.cast_lt ℚ]
    push_cast
    constructor <;> intro h <;> linarith
  have hle : (m - 1 / 2 ≤ (num / den : ℚ)) ↔ 2 * (den * m) ≤ 2 * num + den := by
    rw [le_div_iff₀ hden, ← @Nat.cast_le ℚ]
    push_cast
    constructor <;> intro h <;> linarith
  have hlt' : ((num / den : ℚ) < m + 1 / 2) ↔ 2 * num < 2 * (den * m) + den := by
    rw [div_lt_iff₀ hden, ← @Nat.cast_lt ℚ]
    push_cast
    constructor <;> intro h <;> linarith
  have hle' : ((num / den : ℚ) ≤ m + 1 / 2) ↔ 2 * num ≤ 2 * (den * m) + den := by
    rw [div_le_iff₀ hden, ← @Nat.cast_le ℚ]
    push_cast
    constructor <;> intro h <;> linarith
  rw [Nearest, hlt, hle, hlt', hle']

theorem roundDiv_eq {num den : Nat} (hden : 0 < den) (h : Nearest (num / den) m) :
    roundDiv num den = m := by
  rw [nearest_iff hden] at h
  have hsum := Nat.div_add_mod num den
  have hmod := Nat.mod_lt num hden
  rw [roundDiv]
  generalize num / den = q at hsum ⊢
  generalize num % den = r at hsum hmod ⊢
  -- the quotient is `m` or the number before it
  have hq : m = q ∨ m = q + 1 := by
    rcases Nat.lt_trichotomy m q with hlt | heq | hgt
    · have hmul := Nat.mul_le_mul_left den (Nat.succ_le_of_lt hlt)
      rw [Nat.mul_succ] at hmul
      omega
    · exact .inl heq
    · refine .inr (Nat.le_antisymm (Nat.le_of_not_lt fun hlt => ?_) hgt)
      have hmul := Nat.mul_le_mul_left den (Nat.succ_le_of_lt hlt)
      rw [Nat.mul_succ, Nat.mul_succ] at hmul
      omega
  rcases hq with rfl | rfl
  · grind
  · rw [Nat.mul_succ] at h
    grind

/-- The last binary place to which `v` is rounded has the exponent `e`. -/
structure LastPlace (v : ℚ) (e : Int) : Prop where
  min : minExp ≤ e
  below : v < 2 ^ 53 * 2 ^ e
  above : e = minExp ∨ 2 ^ 52 * 2 ^ e ≤ v

theorem LastPlace.le {e e' : Int} (h : LastPlace v e) (h' : LastPlace v e') : e ≤ e' := by
  rcases h.above with heq | hle
  · exact heq ▸ h'.min
  · have hlt : (2 : ℚ) ^ e < 2 ^ (e' + 1) := by
      rw [zpow_add_one₀ two_ne_zero]
      linarith [hle.trans_lt h'.below]
    exact Int.lt_add_one_iff.1 ((zpow_lt_zpow_iff_right₀ one_lt_two).1 hlt)

theorem LastPlace.unique {e e' : Int} (h : LastPlace v e) (h' : LastPlace v e') : e = e' :=
  Int.le_antisymm (h.le h') (h'.le h)

theorem two_pow_mul (n : Nat) (e : Int) : (2 : ℚ) ^ n * 2 ^ e = 2 ^ (e + n) := by
  rw [zpow_add₀ two_ne_zero, zpow_natCast, mul_comm]

theorem lastPlace_max {e : Int} (hle : (2 : ℚ) ^ (e + 52) ≤ v) (hlt : v < 2 ^ (e + 53)) :
    LastPlace v (max minExp e) := by
  refine ⟨le_max_left _ _, hlt.trans_le ?_, ?_⟩
  · -- the upper bound grows with the exponent
    rw [two_pow_mul]
    gcongr
    · exact one_le_two
    · exact le_max_right _ _
    · rfl
  · rcases le_total e minExp with hmin | hmin
    · exact .inl (max_eq_left hmin)
    · refine .inr ?_
      rw [max_eq_right hmin, two_pow_mul]
      exact hle

theorem lastPlace_spec (hnum : 0 < a.1) (hden : 0 < a.2) : LastPlace (ratio a) (lastPlace a) := by
  obtain ⟨hlow, hhigh⟩ := ratio_log2 hnum hden
  rw [lastPlace]
  generalize (a.1.log2 : Int) - a.2.log2 = k at hlow hhigh
  -- two exponents are left to choose from, and the code compares with the power between them
  split
  · next hlt =>
    rw [fracLt_iff hden (pow2_den_pos _), ratio_pow2] at hlt
    refine lastPlace_max ?_ hlt
    rw [show k - 53 + 52 = k - 1 by ring]
    exact hlow.le
  · next hlt =>
    rw [fracLt_iff hden (pow2_den_pos _), ratio_pow2, not_lt] at hlt
    refine lastPlace_max ?_ ?_
    · rwa [show k - 53 + 1 + 52 = k - 53 + 53 by ring]
    · rwa [show k - 53 + 1 + 53 = k + 1 by ring]

/-! ## The numbers that round to a given one

They form an interval. That of a power of two reaches less far down. -/

/-- A positive finite number `mant · 2 ^ exp` in the form in which it is stored. -/
structure Stored (mant : Nat) (exp : Int) : Prop where
  pos : 0 < mant
  size : mant < Nat.pow 2 53
  min : minExp ≤ exp
  max : exp ≤ 971
  full : exp = minExp ∨ Nat.pow 2 52 ≤ mant

/-- How far below a number its interval starts, in units of its last place: the numbers below a
power of two are twice as close. -/
def gapBelow (mant : Nat) (exp : Int) : ℚ :=
  if mant = Nat.pow 2 52 ∧ minExp < exp then 1 / 4 else 1 / 2

/-- `v` lies in the interval of the numbers that round to `mant · 2 ^ exp`; its ends belong to it
when `mant` is even. -/
def RoundsTo (mant : Nat) (exp : Int) (v : ℚ) : Prop :=
  ((mant - gapBelow mant exp) * 2 ^ exp < v ∧ v < (mant + 1 / 2) * 2 ^ exp) ∨
    mant % 2 = 0 ∧ (mant - gapBelow mant exp) * 2 ^ exp ≤ v ∧ v ≤ (mant + 1 / 2) * 2 ^ exp

theorem gapBelow_le (mant : Nat) (exp : Int) : gapBelow mant exp ≤ 1 / 2 := by
  rw [gapBelow]
  split <;> norm_num

theorem RoundsTo.nearest (h : RoundsTo mant exp v) : Nearest (v / 2 ^ exp) mant := by
  have hunit : (0 : ℚ) < 2 ^ exp := by positivity
  have hgap := gapBelow_le mant exp
  rw [RoundsTo, ← lt_div_iff₀ hunit, ← div_lt_iff₀ hunit, ← le_div_iff₀ hunit,
    ← div_le_iff₀ hunit] at h
  rcases h with ⟨hlow, hhigh⟩ | ⟨heven, hlow, hhigh⟩
  · exact .inl ⟨by linarith, hhigh⟩
  · exact .inr ⟨heven, by linarith, hhigh⟩

theorem Nearest.bounds (h : Nearest v m) : m - 1 / 2 ≤ v ∧ v ≤ m + 1 / 2 := by
  rcases h with ⟨hlow, hhigh⟩ | ⟨-, hlow, hhigh⟩
  · exact ⟨hlow.le, hhigh.le⟩
  · exact ⟨hlow, hhigh⟩

theorem RoundsTo.of_not_full (hs : Stored mant exp) (h : RoundsTo mant exp v) (hexp : exp ≠ minExp)
    (hsmall : v / 2 ^ exp < 2 ^ 52) : mant = Nat.pow 2 52 ∧ (2 ^ 52 - 1 / 4 : ℚ) ≤ v / 2 ^ exp := by
  have hmant : mant = Nat.pow 2 52 := by
    have hle := hs.full.resolve_left hexp
    have hlow := h.nearest.bounds.1
    have hlt : (mant : ℚ) < 2 ^ 52 + 1 := by linarith
    have hlt : mant < 2 ^ 52 + 1 := by exact_mod_cast hlt
    exact Nat.le_antisymm (Nat.lt_succ_iff.1 hlt) hle
  refine ⟨hmant, ?_⟩
  have hmin : minExp < exp := lt_of_le_of_ne hs.min (Ne.symm hexp)
  have hcast : ((Nat.pow 2 52 : Nat) : ℚ) = 2 ^ 52 := by norm_cast
  rw [RoundsTo, gapBelow, if_pos ⟨hmant, hmin⟩, hmant, hcast] at h
  rw [le_div_iff₀ (by positivity)]
  rcases h with ⟨hlow, -⟩ | ⟨-, hlow, -⟩
  · exact hlow.le
  · exact hlow

theorem RoundsTo.cases (hs : Stored mant exp) (h : RoundsTo mant exp v) :
    LastPlace v exp ∨
      LastPlace v (exp - 1) ∧ mant = Nat.pow 2 52 ∧ Nearest (v / 2 ^ (exp - 1)) (Nat.pow 2 53) := by
  have hunit : (0 : ℚ) < 2 ^ exp := by positivity
  by_cases hfull : exp = minExp ∨ 2 ^ 52 * 2 ^ exp ≤ v
  · refine .inl ⟨hs.min, ?_, hfull⟩
    have hhigh := h.nearest.bounds.2
    have hsize : (mant : ℚ) + 1 ≤ 2 ^ 53 := by exact_mod_cast hs.size
    rw [← div_lt_iff₀ hunit]
    linarith
  · rw [not_or, not_le, ← div_lt_iff₀ hunit] at hfull
    obtain ⟨hexp, hsmall⟩ := hfull
    obtain ⟨hmant, hquarter⟩ := h.of_not_full hs hexp hsmall
    have hmin : minExp < exp := lt_of_le_of_ne hs.min (Ne.symm hexp)
    -- one place further down everything is twice as large, and a quarter is a half
    have hhalf : (2 : ℚ) ^ (exp - 1) = 2 ^ exp / 2 := zpow_sub_one₀ two_ne_zero exp
    have htwice : v / 2 ^ (exp - 1) = 2 * (v / 2 ^ exp) := by
      rw [hhalf]
      field_simp
    have hcarry : ((Nat.pow 2 53 : Nat) : ℚ) = 2 * 2 ^ 52 := by norm_cast
    refine .inr ⟨⟨by omega, ?_, .inr ?_⟩, hmant, .inr ⟨by decide, ?_, ?_⟩⟩
    · rw [div_lt_iff₀ hunit] at hsmall
      rw [hhalf]
      linarith
    · rw [le_div_iff₀ hunit] at hquarter
      rw [hhalf]
      linarith
    · rw [htwice, hcarry]
      linarith
    · rw [htwice, hcarry]
      linarith

theorem Stored.bits_lt (hs : Stored mant exp) :
    (exp - minExp).toNat * Nat.pow 2 52 + mant < infiniteBits := by
  have hexp : (exp - minExp).toNat ≤ 2045 := by
    have := hs.max
    rw [minExp]
    omega
  have hsize : mant < 2 * Nat.pow 2 52 := hs.size
  have hmul := Nat.mul_le_mul_right (Nat.pow 2 52) hexp
  rw [infiniteBits]
  generalize Nat.pow 2 52 = p at *
  omega

/-- What lies in the interval of a stored number is rounded to its bits. -/
theorem nearestBits_eq (hnum : 0 < a.1) (hden : 0 < a.2) (hs : Stored mant exp)
    (h : RoundsTo mant exp (ratio a)) :
    nearestBits a = (exp - minExp).toNat * Nat.pow 2 52 + mant := by
  have hlast := lastPlace_spec hnum hden
  have hround : ∀ {m : Nat}, Nearest (ratio a / 2 ^ lastPlace a) m →
      roundDiv (a.1 * (pow2 (lastPlace a)).2) (a.2 * (pow2 (lastPlace a)).1) = m := by
    intro m hm
    refine roundDiv_eq (Nat.mul_pos hden (power_num_pos two_pos _)) ?_
    -- the two fractions are one
    convert hm using 1
    rw [← ratio_pow2, ratio, ratio, div_div_div_eq]
    push_cast
    rfl
  have hbits := Nat.min_eq_right hs.bits_lt.le
  rw [nearestBits]
  dsimp only
  rcases h.cases hs with hplace | ⟨hplace, hmant, hcarry⟩
  · have he := hlast.unique hplace
    rw [hround (he ▸ h.nearest), he, hbits]
  · have he := hlast.unique hplace
    -- the carry out of the last place is the next power of two
    have hexp : (exp - minExp).toNat = (exp - 1 - minExp).toNat + 1 := by
      have := hplace.min
      omega
    have hpow : Nat.pow 2 53 = Nat.pow 2 52 + Nat.pow 2 52 := rfl
    rw [hround (he ▸ hcarry), he, hpow, ← hbits, hmant, hexp, Nat.succ_mul, Nat.add_assoc]

theorem stored_of_finite {x : Float} {neg : Bool} (hx : Binary.ofFloat x = .finite neg mant exp)
    (hmant : 0 < mant) : Stored mant exp := by
  obtain ⟨-, hsize, hmin, hmax, hfull⟩ := parts_of_finite hx
  exact ⟨hmant, hsize, hmin, hmax, hfull⟩

theorem RoundsTo.range (hs : Stored mant exp) (h : RoundsTo mant exp v) :
    (2 : ℚ) ^ (-1075 : Int) ≤ v ∧ v < 2 ^ (1024 : Int) := by
  have hunit : (0 : ℚ) < 2 ^ exp := by positivity
  obtain ⟨hlow, hhigh⟩ := h.nearest.bounds
  rw [le_div_iff₀ hunit] at hlow
  rw [div_le_iff₀ hunit] at hhigh
  have hpos : (1 : ℚ) ≤ mant := by exact_mod_cast hs.pos
  have hsize : (mant : ℚ) + 1 ≤ 2 ^ 53 := by exact_mod_cast hs.size
  have hmin : (2 : ℚ) ^ (-1074 : Int) ≤ 2 ^ exp := zpow_le_zpow_right₀ one_le_two hs.min
  have hmax : (2 : ℚ) ^ exp ≤ 2 ^ (971 : Int) := zpow_le_zpow_right₀ one_le_two hs.max
  constructor
  · calc (2 : ℚ) ^ (-1075 : Int) = 1 / 2 * 2 ^ (-1074 : Int) := by
          rw [show (-1075 : Int) = -1074 - 1 by norm_num, zpow_sub_one₀ two_ne_zero]
          ring
      _ ≤ 1 / 2 * 2 ^ exp := by gcongr
      _ ≤ (mant - 1 / 2) * 2 ^ exp := by
          gcongr
          linarith
      _ ≤ v := hlow
  · calc v ≤ (mant + 1 / 2) * 2 ^ exp := hhigh
      _ < 2 ^ 53 * 2 ^ exp := by
          gcongr
          linarith
      _ ≤ 2 ^ 53 * 2 ^ (971 : Int) := by gcongr
      _ = 2 ^ (1024 : Int) := by
          rw [show (1024 : Int) =
            971 + 53 by norm_num, zpow_add₀ two_ne_zero, zpow_ofNat 2 53, mul_comm]

theorem two_pow_le_ten_pow (n : Nat) : (2 : ℚ) ^ (3 * n) ≤ 10 ^ n := by
  rw [pow_mul]
  gcongr
  norm_num

theorem coef_mul_lt {e : Int} (he : e < -(400 + (coef.log2 : Int))) :
    (coef * 10 ^ e : ℚ) < 2 ^ (-1075 : Int) := by
  have hcoef : (coef : ℚ) < 2 ^ (coef.log2 + 1) := by exact_mod_cast Nat.lt_log2_self
  calc (coef * 10 ^ e : ℚ) < 2 ^ (coef.log2 + 1) * 10 ^ e := by gcongr
    _ ≤ 10 ^ (coef.log2 + 1) * 10 ^ (-(400 + (coef.log2 : Int)) - 1) := by
        gcongr
        · norm_num
        · norm_num
        · omega
    _ = (10 ^ 400)⁻¹ := by
        rw [← zpow_natCast, ← zpow_add₀ (by norm_num), ← zpow_natCast, ← zpow_neg]
        congr 1
        push_cast
        ring
    _ ≤ (2 ^ (3 * 400))⁻¹ := by
        gcongr
        exact two_pow_le_ten_pow 400
    _ = 2 ^ (-(1200 : Nat) : Int) := by rw [zpow_neg, zpow_natCast]
    _ < 2 ^ (-1075 : Int) := zpow_lt_zpow_right₀ one_lt_two (by norm_num)

theorem lt_coef_mul {e : Int} (hcoef : 0 < coef) (he : 400 < e) :
    (2 : ℚ) ^ (1024 : Int) < coef * 10 ^ e := by
  have hcoef : (1 : ℚ) ≤ coef := by exact_mod_cast hcoef
  calc (2 : ℚ) ^ (1024 : Int) < 2 ^ ((3 * 401 : Nat) : Int) :=
    zpow_lt_zpow_right₀ one_lt_two (by norm_num)
    _ ≤ 10 ^ ((401 : Nat) : Int) := by exact_mod_cast two_pow_le_ten_pow 401
    _ ≤ 10 ^ e := zpow_le_zpow_right₀ (by norm_num) (by omega)
    _ ≤ coef * 10 ^ e := le_mul_of_one_le_left (by positivity) hcoef

theorem RoundsTo.coef_pos (hs : Stored mant exp) {e : Int} (h : RoundsTo mant exp (coef * 10 ^ e)) :
    0 < coef := by
  refine Nat.pos_of_ne_zero fun hzero => ?_
  have hlow := (h.range hs).1
  rw [hzero, Nat.cast_zero, zero_mul] at hlow
  exact absurd hlow (not_le.2 (by positivity))

/-- **A decimal that rounds to a number is read as that number.** -/
theorem toFloat_eq {x : Float} {neg : Bool} (hx : Binary.ofFloat x = .finite neg mant exp)
    (hmant : 0 < mant)
    {e : Int} (h : RoundsTo mant exp (coef * 10 ^ e)) : toFloat neg coef e = x := by
  have hs := stored_of_finite hx hmant
  obtain ⟨hlow, hhigh⟩ := h.range hs
  have hcoef := h.coef_pos hs
  -- so neither of the two shortcuts for far-off exponents is taken
  have hsmall : ¬ e < -(400 + (coef.log2 : Int)) :=
    fun he => absurd (coef_mul_lt he) (not_lt.2 hlow)
  have hlarge : ¬ 400 < e := fun he => absurd (lt_coef_mul hcoef he) (not_lt.2 hhigh.le)
  have hbits :
      nearestBits (fracMul coef (pow10 e)) = (exp - minExp).toNat * Nat.pow 2 52 + mant := by
    refine nearestBits_eq ?_ (pow10_den_pos e) hs ?_
    · exact Nat.mul_pos hcoef (power_num_pos (by decide) e)
    · rwa [ratio_fracMul, ratio_pow10]
  have hguard : (decide (coef = 0) || decide (e < -(400 + (coef.log2 : Int)))) = false := by
    rw [Bool.or_eq_false_iff]
    exact ⟨decide_eq_false hcoef.ne', decide_eq_false hsmall⟩
  rw [toFloat, hguard, if_neg Bool.false_ne_true, if_neg hlarge, hbits, ← (parts_of_finite hx).1,
    UInt64.ofNat_toNat, Float.ofBits_toBits]

end CodeAtlas.Decimal
