import CodeAtlas.Json.Reader
import Mathlib.Tactic.Ring

/-!
# Reading numerals

A number is read off its digits whatever stands after it, as long as that does not go on like a
number.
-/

namespace CodeAtlas.Json

theorem digitsValue_eq (ds : List Char) : digitsValue ds = Nat.ofDigitChars 10 ds 0 := by
  simp only [digitsValue, Nat.ofDigitChars, Nat.mul_comm]

theorem digitsValue_append (ds es : List Char) :
    digitsValue (ds ++ es) = 10 ^ es.length * digitsValue ds + digitsValue es := by
  simp only [digitsValue_eq, Nat.ofDigitChars_append]
  exact Nat.ofDigitChars_eq_ofDigitChars_zero

theorem digitsValue_zeros (n : Nat) : digitsValue (List.replicate n '0') = 0 := by
  rw [digitsValue_eq, Nat.ofDigitChars_replicate_zero, Nat.mul_zero]

theorem digitsValue_toDigits (n : Nat) : digitsValue (Nat.toDigits 10 n) = n := by
  rw [digitsValue_eq, Nat.ofDigitChars_ten_toDigits]

variable {c : Char} {cs : List Char} {r : Json × List Char}

theorem isDigit_of_mem_toDigits {n : Nat} (hc : c ∈ Nat.toDigits 10 n) : isDigit c := by
  have hdigit := Nat.isDigit_of_mem_toDigits (by decide) (by decide) hc
  simpa [isDigit, Char.isDigit, Char.le_def] using hdigit

theorem toNat_of_isDigit (hc : isDigit c) : 48 ≤ c.toNat ∧ c.toNat ≤ 57 := by
  simp only [isDigit, Bool.and_eq_true, decide_eq_true_eq] at hc
  exact hc

theorem head?_toDigits_ne {n : Nat} (hn : 0 < n) : (Nat.toDigits 10 n).head? ≠ some '0' := by
  induction n using Nat.strongRecOn with
  | ind n ih =>
    rw [Nat.toDigits_eq_if (by decide)]
    split
    · next hlt =>
      -- one digit, which is no zero
      have hdigit : ∀ d : Fin 10, 0 < d.1 → Nat.digitChar d.1 ≠ '0' := by decide
      simpa using hdigit ⟨n, hlt⟩ hn
    · -- the first digit is that of a tenth of the number
      have hne : Nat.toDigits 10 (n / 10) ≠ [] := Nat.toDigits_ne_nil
      have hhead := ih (n / 10) (by omega) (by omega)
      cases hds : Nat.toDigits 10 (n / 10) with
      | nil => exact absurd hds hne
      | cons d ds =>
        rw [hds] at hhead
        exact hhead

def NoDigit (rest : List Char) : Prop :=
  ∀ c ∈ rest.head?, isDigit c = false

variable {ds rest : List Char}

theorem takeWhile_digits (hds : ∀ c ∈ ds, isDigit c) (hrest : NoDigit rest) :
    (ds ++ rest).takeWhile isDigit = ds := by
  rw [List.takeWhile_append_of_pos hds]
  cases rest with
  | nil => simp
  | cons c cs => simp [hrest c rfl]

theorem dropWhile_digits (hds : ∀ c ∈ ds, isDigit c) (hrest : NoDigit rest) :
    (ds ++ rest).dropWhile isDigit = rest := by
  rw [List.dropWhile_append_of_pos hds]
  cases rest with
  | nil => rfl
  | cons c cs => simp [hrest c rfl]

theorem append_toString_inj {k k' : Nat} {rest rest' : List Char} (hrest : NoDigit rest)
    (hrest' : NoDigit rest')
    (h : (toString k).toList ++ rest = (toString k').toList ++ rest') : k = k' ∧ rest = rest' := by
  have hdigits (k : Nat) : (toString k).toList = Nat.toDigits 10 k := String.toList_ofList
  have hall (k : Nat) : ∀ c ∈ Nat.toDigits 10 k, isDigit c :=
    fun _ => isDigit_of_mem_toDigits
  rw [hdigits, hdigits] at h
  have hnumber := congrArg (List.takeWhile isDigit) h
  have hafter := congrArg (List.dropWhile isDigit) h
  rw [takeWhile_digits (hall k) hrest, takeWhile_digits (hall k') hrest'] at hnumber
  rw [dropWhile_digits (hall k) hrest, dropWhile_digits (hall k') hrest'] at hafter
  refine ⟨?_, hafter⟩
  rw [← digitsValue_toDigits k, hnumber, digitsValue_toDigits]

/-! ## The parts of a number

Each part is read up to the first character that is none of its own. -/

/-- Digits of a whole part: a zero alone, or digits that do not start with one. -/
def IsWhole (ds : List Char) : Prop :=
  ds = ['0'] ∨ ds ≠ [] ∧ ds.head? ≠ some '0' ∧ ∀ c ∈ ds, isDigit c = true

theorem isWhole_toDigits (n : Nat) : IsWhole (Nat.toDigits 10 n) := by
  rcases Nat.eq_zero_or_pos n with rfl | hn
  · exact .inl (Nat.toDigits_zero 10)
  · exact .inr ⟨Nat.toDigits_ne_nil, head?_toDigits_ne hn, fun c => isDigit_of_mem_toDigits⟩

theorem readWhole?_append (hds : IsWhole ds) (hrest : NoDigit rest) :
    readWhole? (ds ++ rest) = some (ds, rest) := by
  rcases hds with rfl | ⟨hne, hhead, hdigits⟩
  · rfl
  · unfold readWhole?
    split
    · next heq =>
      cases ds with
      | nil => exact absurd rfl hne
      | cons d ds => simp_all
    · rw [takeWhile_digits hdigits hrest, dropWhile_digits hdigits hrest]
      simp [hne]

theorem readFraction_append (hne : ds ≠ []) (hds : ∀ c ∈ ds, isDigit c)
    (hrest : NoDigit rest) : readFraction ('.' :: (ds ++ rest)) = (ds, rest) := by
  rw [readFraction, takeWhile_digits hds hrest, dropWhile_digits hds hrest]
  simp [hne]

theorem readFraction_of_head_ne (hrest : rest.head? ≠ some '.') :
    readFraction rest = ([], rest) := by
  unfold readFraction
  split
  · simp at hrest
  · rfl

theorem readExponent_append (neg : Bool) (hne : ds ≠ []) (hds : ∀ c ∈ ds, isDigit c)
    (hrest : NoDigit rest) :
    readExponent ('e' :: (if neg then '-' else '+') :: (ds ++ rest)) =
      (some (if neg then -(digitsValue ds : Int) else digitsValue ds), rest) := by
  cases neg <;>
    simp [readExponent, takeWhile_digits hds hrest, dropWhile_digits hds hrest, hne]

theorem readExponent_of_head_ne (he : rest.head? ≠ some 'e') (hE : rest.head? ≠ some 'E') :
    readExponent rest = (none, rest) := by
  cases rest with
  | nil => rfl
  | cons c cs =>
    have hc : (c == 'e' || c == 'E') = false := by simp_all
    unfold readExponent
    exact if_neg (by simp [hc])

/-- What follows a value: nothing, a comma or a closing bracket or brace. -/
def Ends (rest : List Char) : Prop :=
  ∀ c ∈ rest.head?, c = ',' ∨ c = ']' ∨ c = '\x7d'

theorem Ends.noDigit (h : Ends rest) : NoDigit rest := by
  intro c hc
  rcases h c hc with rfl | rfl | rfl <;> decide

theorem Ends.head_ne (h : Ends rest) (hc : c ≠ ',' ∧ c ≠ ']' ∧ c ≠ '\x7d') :
    rest.head? ≠ some c := by
  intro hhead
  rcases h c hhead with rfl | rfl | rfl <;> simp at hc

theorem readNumber?_whole (neg : Bool) (n : Nat) (hrest : Ends rest) :
    readNumber? neg (Nat.toDigits 10 n ++ rest) = some (.int (if neg then -(n : Int) else n),
      rest) := by
  rw [readNumber?, readWhole?_append (isWhole_toDigits n) hrest.noDigit]
  simp [readFraction_of_head_ne (hrest.head_ne (by decide)),
    readExponent_of_head_ne (hrest.head_ne (by decide)) (hrest.head_ne (by decide)),
      digitsValue_toDigits]

variable {whole fraction : List Char}

theorem readNumber?_of_parts {afterWhole afterFraction : List Char} {exponent : Option Int}
    (neg : Bool) (hwhole : readWhole? cs = some (whole, afterWhole))
    (hfraction : readFraction afterWhole = (fraction, afterFraction))
    (hexponent : readExponent afterFraction = (exponent, rest))
    (hparts : fraction ≠ [] ∨ exponent ≠ none) :
    readNumber? neg cs =
      some (.float (Decimal.toFloat neg (digitsValue (whole ++ fraction))
        (exponent.getD 0 - fraction.length)), rest) := by
  have hfloat : (fraction.isEmpty && exponent.isNone) = false := by
    rcases hparts with h | h
    · simp [h]
    · simp [Option.isSome_iff_ne_none.2 h]
  simp only [readNumber?, hwhole, Option.bind_eq_bind, Option.bind_some, hfraction, hexponent,
    hfloat]
  rfl

theorem noDigit_cons (hc : isDigit c = false) : NoDigit (c :: cs) := by
  rintro d ⟨rfl⟩
  exact hc

theorem readNumber?_fraction (neg : Bool) (hwhole : IsWhole whole) (hne : fraction ≠ [])
    (hfraction : ∀ c ∈ fraction, isDigit c) (hrest : Ends rest) :
    readNumber? neg (whole ++ '.' :: (fraction ++ rest)) =
      some (.float (Decimal.toFloat neg (digitsValue (whole ++ fraction)) (0 - fraction.length)),
        rest) := by
  have hread := readNumber?_of_parts neg (readWhole?_append hwhole (noDigit_cons (by decide)))
    (readFraction_append hne hfraction hrest.noDigit)
    (readExponent_of_head_ne (hrest.head_ne (by decide)) (hrest.head_ne (by decide))) (.inl hne)
  rwa [Option.getD_none] at hread

theorem readNumber?_exponent (neg negExp : Bool) (hwhole : IsWhole whole)
    (hfraction : ∀ c ∈ fraction, isDigit c) (hne : ds ≠ [])
    (hds : ∀ c ∈ ds, isDigit c) (hrest : Ends rest) :
    readNumber? neg (whole ++ ((if fraction.isEmpty then [] else '.' :: fraction) ++
        'e' :: (if negExp then '-' else '+') :: (ds ++ rest))) =
      some (.float (Decimal.toFloat neg (digitsValue (whole ++ fraction))
        ((if negExp then -(digitsValue ds : Int) else digitsValue ds) - fraction.length)),
          rest) := by
  have hexp := readExponent_append negExp hne hds hrest.noDigit
  have he : ∀ cs, NoDigit ('e' :: cs) := fun cs => noDigit_cons (by decide)
  cases fraction with
  | nil =>
    have hread := readNumber?_of_parts neg (readWhole?_append hwhole (he _))
      (readFraction_of_head_ne (by simp)) hexp (.inr (by simp))
    rwa [Option.getD_some] at hread
  | cons d fraction =>
    have hread := readNumber?_of_parts neg (readWhole?_append hwhole (noDigit_cons (by decide)))
      (readFraction_append (List.cons_ne_nil d fraction) hfraction (he _)) hexp (.inr (by simp))
    rwa [Option.getD_some] at hread

theorem head_of_readNumber? {neg : Bool} (h : readNumber? neg cs = some r) :
    ∃ d more, cs = d :: more ∧ isDigit d := by
  obtain ⟨parts, hparts, -⟩ := Option.bind_eq_some_iff.1 h
  -- the whole part is a zero, or as many digits as there are
  unfold readWhole? at hparts
  split at hparts
  · next more => exact ⟨'0', more, rfl, by decide⟩
  · dsimp only at hparts
    cases cs with
    | nil => simp at hparts
    | cons d more =>
      refine ⟨d, more, rfl, Decidable.byContradiction fun hd => ?_⟩
      simp [hd] at hparts

theorem readScalar?_of_readNumber? {neg : Bool} (h : readNumber? neg cs = some r) :
    readScalar? ((if neg then ['-'] else []) ++ cs) = some r := by
  obtain ⟨d, more, rfl, hd⟩ := head_of_readNumber? h
  have hne : ∀ c, isDigit c = false → d ≠ c := by
    rintro c hc rfl
    exact Bool.noConfusion (hc.symm.trans hd)
  -- a digit starts none of the other values
  cases neg with
  | false =>
    have hheads : d ≠ '"' ∧ d ≠ 'n' ∧ d ≠ 't' ∧ d ≠ 'f' ∧ d ≠ 'N' ∧ d ≠ 'I' ∧ d ≠ '-' := by
      refine ⟨?_, ?_, ?_, ?_, ?_, ?_, ?_⟩ <;> exact hne _ (by decide)
    simpa [readScalar?, hheads] using h
  | true =>
    have hword : d ≠ 'I' := hne _ (by decide)
    simpa [readScalar?, hword] using h

end CodeAtlas.Json
