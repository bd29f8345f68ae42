import CodeAtlas.Json.Writer
import CodeAtlas.Proofs.Numerals
import CodeAtlas.Proofs.Rounding

/-!
# The shortest text of a number reads back

The digits that are chosen for a number lie in the interval of the reals that round to it: every
decimal that is tried is tested for that, and the exact expansion, which is taken when none passes,
is the number itself. So it does not matter how the search for digits goes. The text of the digits,
positional or with an exponent, is then read as a decimal of the same value, which rounds to the
number (`readScalar?_shortest`).
-/

namespace CodeAtlas.Decimal

open List

/-! ## The chosen decimal

It lies in the interval of the number, so it rounds to the number. -/

def Candidate.value (c : Candidate) : ℚ :=
  c.coef * 10 ^ c.exp

variable {mant : Nat} {exp : Int}

theorem ratio_candidate (c : Candidate) : ratio (fracMul c.coef (pow10 c.exp)) = c.value := by
  rw [ratio_fracMul, ratio_pow10, Candidate.value]

theorem ratio_quarters (n : Nat) (exp : Int) :
    ratio (fracMul n (pow2 (exp - 2))) = n / 4 * 2 ^ exp := by
  rw [ratio_fracMul, ratio_pow2, zpow_sub₀ two_ne_zero]
  norm_num
  ring

theorem roundsTo_of_readsBack (hmant : 0 < mant) {c : Candidate} (h : readsBack mant exp c) :
    RoundsTo mant exp c.value := by
  have hfrac : ∀ (n : Nat) (a : Nat × Nat), 0 < a.2 → 0 < (fracMul n a).2 := fun _ _ h => h
  have hvalue := hfrac c.coef _ (pow10_den_pos c.exp)
  have hunit : ∀ n, 0 < (fracMul n (pow2 (exp - 2))).2 := fun n => hfrac n _ (pow2_den_pos _)
  have hhigh : ((4 * mant + 2 : Nat) : ℚ) / 4 = mant + 1 / 2 := by
    push_cast
    ring
  have hlow :
      ((if mant = Nat.pow 2 52 && minExp < exp then 4 * mant - 1 else 4 * mant - 2 : Nat) : ℚ) / 4 =
      mant - gapBelow mant exp := by
    rw [gapBelow]
    by_cases hpower : mant = Nat.pow 2 52 ∧ minExp < exp
    · rw [if_pos (by simpa using hpower), if_pos hpower, Nat.cast_sub (by omega)]
      push_cast
      ring
    · rw [if_neg (by simpa using hpower), if_neg hpower, Nat.cast_sub (by omega)]
      push_cast
      ring
  rw [readsBack] at h
  -- the ends of the interval belong to it if the mantissa is even
  split at h
  · next heven =>
    rw [Bool.and_eq_true, Bool.not_eq_true', ← Bool.not_eq_true, Bool.not_eq_true',
      ← Bool.not_eq_true,
      fracLt_iff hvalue (hunit _), fracLt_iff (hunit _) hvalue, ratio_candidate, ratio_quarters,
        ratio_quarters,
      hlow, hhigh, not_lt, not_lt] at h
    exact .inr ⟨heven, h⟩
  · rw [Bool.and_eq_true, fracLt_iff hvalue (hunit _), fracLt_iff (hunit _) hvalue, ratio_candidate,
      ratio_quarters, ratio_quarters, hlow, hhigh] at h
    exact .inl h

theorem roundsTo_self (mant : Nat) (exp : Int) : RoundsTo mant exp (mant * 2 ^ exp) := by
  have hgap : 0 < gapBelow mant exp := by
    rw [gapBelow]
    split <;> norm_num
  have hunit : (0 : ℚ) < 2 ^ exp := by positivity
  refine .inl ⟨?_, ?_⟩
  · gcongr
    linarith
  · gcongr
    linarith

theorem value_exactCandidate (mant : Nat) (exp : Int) :
    (exactCandidate mant exp).value = mant * 2 ^ exp := by
  rw [exactCandidate]
  split
  · next he =>
    obtain ⟨n, rfl⟩ := Int.eq_ofNat_of_zero_le he
    simp [Candidate.value]
  · next he =>
    obtain ⟨n, hn⟩ := Int.eq_ofNat_of_zero_le (show 0 ≤ -exp by omega)
    obtain rfl : exp = -n := by omega
    have hten : (10 : ℚ) ^ n = 5 ^ n * 2 ^ n := by
      rw [← mul_pow]
      norm_num
    simp only [Candidate.value, zpow_neg, zpow_natCast, hten, neg_neg, Int.toNat_natCast,
      Nat.pow_eq]
    push_cast
    field_simp

/-- Whichever number of digits is taken, the decimal lies in the interval. -/
theorem roundsTo_shortestCandidate (hmant : 0 < mant) (exp : Int) :
    RoundsTo mant exp (shortestCandidate mant exp).value := by
  rw [shortestCandidate]
  dsimp only
  split
  · next c hc =>
    -- whichever decimal was found, it was found by passing the test
    obtain ⟨n, -, hn⟩ := exists_of_findSome?_eq_some hc
    obtain ⟨coef, -, hcoef⟩ := exists_of_findSome?_eq_some hn
    dsimp only at hcoef
    split at hcoef
    · next hread => exact Option.some.inj hcoef ▸ roundsTo_of_readsBack hmant hread
    · cases hcoef
  · rw [value_exactCandidate]
    exact roundsTo_self mant exp

theorem value_stripZeros (n : Nat) (c : Candidate) : (stripZeros n c).value = c.value := by
  fun_induction stripZeros with
  | case1 c => rfl
  | case2 n c h ih =>
    rw [Bool.and_eq_true, decide_eq_true_iff] at h
    have hcoef : c.coef = c.coef / 10 * 10 := by omega
    rw [ih, Candidate.value, Candidate.value, zpow_add_one₀ (by norm_num)]
    conv_rhs => rw [hcoef]
    push_cast
    ring
  | case3 => rfl

/-! ## Its text

Each layout of digits, point and exponent is read back as the decimal that was written. -/

open Json (Ends IsWhole digitsValue isDigit readNumber?)

variable {rest : List Char} {c : Candidate}

def exponentDigits (n : Nat) : List Char :=
  (if (Nat.toDigits 10 n).length < 2 then ['0'] else []) ++ Nat.toDigits 10 n

theorem toList_exponentText (e : Int) :
    (exponentText e).toList = 'e' :: (if decide (e < 0) then '-' else '+') ::
      exponentDigits e.natAbs := by
  have hlength : (digits e.natAbs).length = (Nat.toDigits 10 e.natAbs).length :=
    String.length_ofList
  simp only [exponentText, exponentDigits, hlength]
  by_cases he : e < 0 <;> by_cases hsize : (Nat.toDigits 10 e.natAbs).length < 2 <;>
    simp [he, hsize, digits]

theorem isDigit_of_mem_exponentDigits {n : Nat} {d : Char} (hd : d ∈ exponentDigits n) :
    isDigit d := by
  rw [exponentDigits, mem_append] at hd
  rcases hd with hd | hd
  · split at hd
    · obtain rfl := mem_singleton.1 hd
      decide
    · cases hd
  · exact Json.isDigit_of_mem_toDigits hd

theorem digitsValue_exponentDigits (n : Nat) : digitsValue (exponentDigits n) = n := by
  rw [exponentDigits, Json.digitsValue_append, Json.digitsValue_toDigits]
  split
  · exact Nat.zero_add n
  · exact Nat.zero_add n

theorem signed_exponentDigits (e : Int) :
    (if decide (e < 0) then -(digitsValue (exponentDigits e.natAbs) : Int)
      else digitsValue (exponentDigits e.natAbs)) = e := by
  rw [digitsValue_exponentDigits]
  by_cases he : e < 0
  · rw [if_pos (by simpa using he)]
    omega
  · rw [if_neg (by simpa using he)]
    omega

theorem isWhole_of_toDigits {n : Nat} (hn : 0 < n) {ds es : List Char} (hne : ds ≠ [])
    (hds : Nat.toDigits 10 n = ds ++ es) (zeros : Nat) :
    IsWhole (ds ++ List.replicate zeros '0') := by
  have hhead := Json.head?_toDigits_ne hn
  refine .inr ⟨by simp [hne], ?_, ?_⟩
  · cases ds with
    | nil => exact absurd rfl hne
    | cons d ds =>
      rw [hds] at hhead
      exact hhead
  · intro c hc
    rcases mem_append.1 hc with hc | hc
    · exact Json.isDigit_of_mem_toDigits (hds ▸ mem_append_left es hc)
    · obtain rfl := eq_of_mem_replicate hc
      decide

theorem readNumber?_scientific (neg : Bool) (hc : 0 < c.coef) (hrest : Ends rest) {d : Char}
    {ds : List Char}
    (hds : Nat.toDigits 10 c.coef = d :: ds) {e : Int} (he : e = ds.length + c.exp) :
    readNumber? neg
      ([d] ++ ((if ds.isEmpty then [] else '.' :: ds) ++ ((exponentText e).toList ++ rest))) =
      some (.float (toFloat neg c.coef c.exp), rest) := by
  have hwhole : IsWhole [d] := isWhole_of_toDigits hc (cons_ne_nil d []) hds 0
  have hdigits : ∀ x ∈ ds, isDigit x :=
    fun x hx => Json.isDigit_of_mem_toDigits (hds ▸ mem_cons_of_mem d hx)
  have hexp : exponentDigits e.natAbs ≠ [] := by simp [exponentDigits]
  have hread := Json.readNumber?_exponent neg (decide (e < 0)) hwhole hdigits hexp
    (fun x => isDigit_of_mem_exponentDigits) hrest
  have hcoef : digitsValue ([d] ++ ds) = c.coef := by
    rw [singleton_append, ← hds, Json.digitsValue_toDigits]
  have hlast : e - ds.length = c.exp := by omega
  rw [signed_exponentDigits, hcoef, hlast] at hread
  rw [toList_exponentText, cons_append, cons_append]
  exact hread

theorem readNumber?_belowOne (neg : Bool) (hrest : Ends rest) {zeros : Nat}
    (hzeros : (zeros : Int) = -((Nat.toDigits 10 c.coef).length + c.exp)) :
    readNumber? neg (['0'] ++ '.' :: (List.replicate zeros '0' ++ Nat.toDigits 10 c.coef ++ rest)) =
      some (.float (toFloat neg c.coef c.exp), rest) := by
  have hdigits : ∀ x ∈ List.replicate zeros '0' ++ Nat.toDigits 10 c.coef, isDigit x := by
    intro x hx
    rcases mem_append.1 hx with hx | hx
    · obtain rfl := eq_of_mem_replicate hx
      decide
    · exact Json.isDigit_of_mem_toDigits hx
  have hread := Json.readNumber?_fraction neg (.inl rfl) (by simp) hdigits hrest
  -- zeros in front count for nothing
  have hcoef :
      digitsValue (['0'] ++ (List.replicate zeros '0' ++ Nat.toDigits 10 c.coef)) = c.coef := by
    rw [← append_assoc, Json.digitsValue_append, Json.digitsValue_append, Json.digitsValue_zeros,
      Json.digitsValue_toDigits]
    simp [digitsValue]
  have hlast : 0 - ((List.replicate zeros '0' ++ Nat.toDigits 10 c.coef).length : Int) = c.exp := by
    rw [length_append, length_replicate]
    omega
  rwa [hcoef, hlast] at hread

theorem readNumber?_split (neg : Bool) (hc : 0 < c.coef) (hrest : Ends rest)
    {whole fraction : List Char}
    (hds : Nat.toDigits 10 c.coef = whole ++ fraction) (hwhole : whole ≠ [])
    (hfraction : fraction ≠ []) (hexp : c.exp = -(fraction.length : Int)) :
    readNumber? neg (whole ++ '.' :: (fraction ++ rest)) = some
      (.float (toFloat neg c.coef c.exp), rest) := by
  have hread := Json.readNumber?_fraction neg
    (by simpa using isWhole_of_toDigits hc hwhole hds 0) hfraction
    (fun x hx => Json.isDigit_of_mem_toDigits (hds ▸ mem_append_right whole hx)) hrest
  rwa [← hds, Json.digitsValue_toDigits, Int.zero_sub, ← hexp] at hread

theorem readNumber?_padded (neg : Bool) (hc : 0 < c.coef) (hrest : Ends rest) (zeros : Nat) :
    readNumber? neg (Nat.toDigits 10 c.coef ++ List.replicate zeros '0' ++ '.' :: (['0'] ++ rest)) =
      some (.float (toFloat neg (10 * (10 ^ zeros * c.coef)) (-1)), rest) := by
  have hread := Json.readNumber?_fraction neg
    (isWhole_of_toDigits hc Nat.toDigits_ne_nil (append_nil _).symm zeros)
    (cons_ne_nil '0' []) (forall_mem_singleton.2 (by decide)) hrest
  have hcoef : digitsValue (Nat.toDigits 10 c.coef ++ List.replicate zeros '0' ++ ['0']) =
      10 * (10 ^ zeros * c.coef) := by
    rw [Json.digitsValue_append, Json.digitsValue_append, Json.digitsValue_zeros,
      Json.digitsValue_toDigits, length_replicate]
    rfl
  rwa [hcoef] at hread

theorem value_padded {zeros : Nat} (hexp : c.exp = zeros) :
    ((10 * (10 ^ zeros * c.coef) : Nat) * 10 ^ (-1 : Int) : ℚ) = c.value := by
  rw [Candidate.value, hexp, zpow_natCast]
  push_cast
  norm_num
  ring

theorem readNumber?_writeCandidate (neg : Bool) (hc : 0 < c.coef) (hrest : Ends rest) :
    ∃ coef e, readNumber? neg ((writeCandidate c).toList ++ rest) = some
      (.float (toFloat neg coef e), rest) ∧ (coef * 10 ^ e : ℚ) = c.value := by
  have hlength : 0 < (Nat.toDigits 10 c.coef).length := Nat.length_toDigits_pos
  rw [writeCandidate]
  split
  · split
    · next hpoint =>
      have hread := readNumber?_belowOne (c := c) neg hrest (Int.toNat_of_nonneg (by omega))
      refine ⟨c.coef, c.exp, ?_, rfl⟩
      simpa using hread
    · next hpoint =>
      set point := ((Nat.toDigits 10 c.coef).length + c.exp).toNat with hnat
      by_cases hsize : (Nat.toDigits 10 c.coef).length ≤ point
      · -- all digits stand before the point, so the one zero after it moves the last place
        set zeros := point - (Nat.toDigits 10 c.coef).length with hzeros
        have hread := readNumber?_padded (c := c) neg hc hrest zeros
        refine ⟨_, _, ?_, value_padded (by omega : c.exp = zeros)⟩
        simpa [take_of_length_le hsize, drop_of_length_le hsize, ← hzeros] using hread
      · have hdrop : (Nat.toDigits 10 c.coef).drop point ≠ [] := by simpa using hsize
        have hread := readNumber?_split (c := c) neg hc hrest (take_append_drop point _).symm
          (by simp; omega) hdrop (by rw [length_drop]; omega)
        refine ⟨c.coef, c.exp, ?_, rfl⟩
        have hzeros : point - (Nat.toDigits 10 c.coef).length = 0 := by omega
        simpa [hdrop, hzeros] using hread
  · -- with an exponent, a single digit has no point after it
    refine ⟨c.coef, c.exp, ?_, rfl⟩
    split
    · next hnil => exact absurd hnil Nat.toDigits_ne_nil
    · next d hds =>
      have hread := readNumber?_scientific (c := c) neg hc hrest hds rfl
      simpa [hds, add_sub_right_comm] using hread
    · next d ds hcons hds =>
      have hread := readNumber?_scientific (c := c) neg hc hrest hds rfl
      have hlast : ((Nat.toDigits 10 c.coef).length : Int) + c.exp - 1 = ds.length + c.exp := by
        rw [hds, length_cons]
        omega
      simpa [hlast, show ds ≠ [] from hcons] using hread

variable {x : Float} {neg : Bool}

theorem toFloat_zero (hx : Binary.ofFloat x = .finite neg 0 exp) (e : Int) :
    toFloat neg 0 e = x := by
  obtain ⟨hbits, -, -, -, hfull⟩ := parts_of_finite hx
  have hexp : exp = minExp := hfull.resolve_right (by decide)
  rw [hexp, Int.sub_self] at hbits
  rw [← Float.ofBits_toBits x, ← UInt64.ofNat_toNat (x := x.toBits), hbits]
  rfl

/-- **The text of a number is read back as that number**, bit for bit. -/
theorem readScalar?_shortest (hx : Binary.ofFloat x = .finite neg mant exp) (hrest : Ends rest) :
    Json.readScalar? ((shortest x).toList ++ rest) = some (.float x, rest) := by
  have hsign : ∀ text : String, readNumber? neg (text.toList ++ rest) = some (.float x, rest) →
      Json.readScalar? (((if neg then "-" else "") ++ text).toList ++ rest) =
        some (.float x, rest) := by
    intro text hread
    have hscalar := Json.readScalar?_of_readNumber? hread
    cases neg <;> simpa using hscalar
  rw [shortest, hx]
  by_cases hzero : mant = 0
  · subst hzero
    refine hsign _ ?_
    have hread := Json.readNumber?_fraction neg (.inl rfl) (cons_ne_nil '0' [])
      (forall_mem_singleton.2 (by decide)) hrest
    rw [show digitsValue (['0'] ++ ['0']) = 0 from rfl, toFloat_zero hx] at hread
    rw [if_pos rfl]
    exact hread
  · have hmant := Nat.pos_of_ne_zero hzero
    have hround : RoundsTo mant exp (stripZeros 400 (shortestCandidate mant exp)).value := by
      rw [value_stripZeros]
      exact roundsTo_shortestCandidate hmant exp
    obtain ⟨coef, e, hread, hvalue⟩ :=
      readNumber?_writeCandidate neg (RoundsTo.coef_pos (stored_of_finite hx hmant) hround) hrest
    -- the decimal that is read may be another one than was written, but has its value
    rw [← hvalue] at hround
    rw [toFloat_eq hx hmant hround] at hread
    dsimp only
    rw [if_neg hzero]
    exact hsign _ hread

end CodeAtlas.Decimal
