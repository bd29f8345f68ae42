import CodeAtlas.Proofs.Shortest

/-!
# Written JSON reads back

`parse?_write`: a value in which no object repeats a key is read back from its compact text. The
argument goes along the reader, from the inside out:

* strings — every character is read from its escape alone (`readString?_escapeChar`), also where the
  escape of a code unit is followed by another one, with which it might make a pair;
* numbers — `readScalar?_writeInt` and `readScalar?_writeFloat`;
* values — `Recovered` says that a value is read back whatever follows it.
-/

namespace CodeAtlas.Json

open List
open Text (join unixLines)

/-! ## Strings

Every character is written so that the reader gets it back, in one step or in two for a pair. -/

variable {cs : List Char} {r : Option (List Char × List Char)}

def consRead (c : Char) (r : Option (List Char × List Char)) : Option (List Char × List Char) :=
  r.map fun (s, after) => (c :: s, after)

theorem bind_eq_consRead (c : Char) (r : Option (List Char × List Char)) :
    (do
      let (rest, after) ← r
      return (c :: rest, after)) = consRead c r := by
  cases r <;> rfl

variable {c a b d : Char} {n : Nat} {items : List Json} {fields : List (String × Json)}

theorem readString?_plain (hquote : c ≠ '"') (hslash : c ≠ '\\') (hsize : 32 ≤ c.toNat) :
    readString? (c :: cs) = consRead c (readString? cs) := by
  have hguard : (decide (c.toNat < 32) || c == '\\') = false := by
    simp [hslash, Nat.not_lt.2 hsize]
  rw [readString?.eq_6 c cs (by simp [hquote]) (by simp [hslash]) (by simp [hslash])
    (by simp [hslash]), hguard, if_neg Bool.false_ne_true, bind_eq_consRead]

theorem readString?_short {e : Char} (hunit : e ≠ 'u') (he : shortEscape? e = some c) :
    readString? ('\\' :: e :: cs) = consRead c (readString? cs) := by
  rw [readString?.eq_5 e cs (by simp [hunit]) (by simp [hunit]), he]
  exact bind_eq_consRead c _

theorem readString?_of_unit?_eq_none (hunit : unit? a b c d = none) :
    readString? ('\\' :: 'u' :: a :: b :: c :: d :: cs) = none := by
  by_cases hnext : ∃ a' b' c' d' rest, cs = '\\' :: 'u' :: a' :: b' :: c' :: d' :: rest
  · obtain ⟨a', b', c', d', rest, rfl⟩ := hnext
    rw [readString?, hunit]
    rfl
  · rw [readString?.eq_4 _ _ _ _ _ fun a' b' c' d' rest heq => hnext ⟨a', b', c', d', rest, heq⟩,
      hunit]
    rfl

theorem readString?_unit (hunit : unit? a b c d = some n) (hn : isHighUnit n = false)
    (cs : List Char) :
    readString? ('\\' :: 'u' :: a :: b :: c :: d :: cs) = consRead (loneUnit n)
      (readString? cs) := by
  -- another code unit may follow; it is looked at for a pair, and then read on its own
  by_cases hnext : ∃ a' b' c' d' rest, cs = '\\' :: 'u' :: a' :: b' :: c' :: d' :: rest
  · obtain ⟨a', b', c', d', rest, rfl⟩ := hnext
    rw [readString?, hunit, Option.bind_eq_bind, Option.bind_some]
    split
    · rw [hn, Bool.false_and, if_neg Bool.false_ne_true, bind_eq_consRead]
    · next hnone => rw [readString?_of_unit?_eq_none hnone, consRead, Option.map_none]
  · rw [readString?.eq_4 _ _ _ _ _ fun a' b' c' d' rest heq => hnext ⟨a', b', c', d', rest, heq⟩,
      hunit]
    exact bind_eq_consRead _ _

theorem readString?_lone (hunit : unit? a b c d = some n) (hn : n < 0xD800 ∨ 0xDFFF < n)
    (cs : List Char) :
    readString? ('\\' :: 'u' :: a :: b :: c :: d :: cs) = consRead (Char.ofNat n)
      (readString? cs) := by
  have hhigh : isHighUnit n = false := by
    rw [isHighUnit, Bool.and_eq_false_iff, decide_eq_false_iff_not, decide_eq_false_iff_not]
    omega
  have hlow : isLowUnit n = false := by
    rw [isLowUnit, Bool.and_eq_false_iff, decide_eq_false_iff_not, decide_eq_false_iff_not]
    omega
  have hread := readString?_unit hunit hhigh cs
  rwa [loneUnit, hhigh, hlow] at hread

theorem readString?_pair {a' b' c' d' : Char} {m : Nat} (hunit : unit? a b c d = some (0xD800 + m))
    (hm : m < 1024)
    (hunit' : unit? a' b' c' d' = some (0xDC00 + n)) (hn : n < 1024) (cs : List Char) :
    readString? ('\\' :: 'u' :: a :: b :: c :: d :: '\\' :: 'u' :: a' :: b' :: c' :: d' :: cs) =
      consRead (Char.ofNat (0x10000 + m * 1024 + n)) (readString? cs) := by
  have hboth : (isHighUnit (0xD800 + m) && isLowUnit (0xDC00 + n)) := by
    simp only [isHighUnit, isLowUnit, Bool.and_eq_true, decide_eq_true_iff]
    omega
  rw [readString?, hunit, Option.bind_eq_bind, Option.bind_some, hunit']
  dsimp only
  rw [if_pos hboth, bind_eq_consRead, Nat.add_sub_cancel_left, Nat.add_sub_cancel_left]

theorem unit?_digits (hn : n < 0x10000) :
    unit? (n / 4096 % 16).digitChar (n / 256 % 16).digitChar (n / 16 % 16).digitChar
      (n % 16).digitChar = some n := by
  have hdigit : ∀ k, k < 16 → hexValue? k.digitChar = some k := by decide
  rw [unit?, hdigit _ (by omega), hdigit _ (by omega), hdigit _ (by omega), hdigit _ (by omega)]
  refine congrArg some ?_
  omega

theorem readString?_unitEscapes (hn : n < 0x100000) (cs : List Char) :
    readString? (unitEscape (0xD800 + n / 1024) ++ unitEscape (0xDC00 + n % 1024) ++ cs) =
      consRead (Char.ofNat (0x10000 + n)) (readString? cs) := by
  have hhigh : n / 1024 < 1024 := by omega
  have hlow : n % 1024 < 1024 := by omega
  have hread := readString?_pair (unit?_digits (by omega)) hhigh (unit?_digits (by omega)) hlow cs
  have hvalue : 0x10000 + n / 1024 * 1024 + n % 1024 = 0x10000 + n := by omega
  rw [hvalue] at hread
  exact hread

/-- **What is written for a character is read as that character.** -/
theorem readString?_escapeChar (c : Char) :
    readString? (escapeChar c ++ cs) = consRead c (readString? cs) := by
  have hvalid : c.toNat < 0xD800 ∨ 0xDFFF < c.toNat ∧ c.toNat < 0x110000 := c.valid
  have hofNat := Char.ofNat_toNat c
  have hshort : ∀ {e d : Char}, e ≠ 'u' → shortEscape? e = some d → c = d →
      readString? ('\\' :: e :: cs) = consRead c (readString? cs) := by
    rintro e d hunit he rfl
    exact readString?_short hunit he
  unfold escapeChar
  -- the seven characters with a short escape
  iterate 5
    split
    · next h => exact hshort (by decide) rfl (eq_of_beq h)
  iterate 2
    split
    · next h => exact hshort (by decide) rfl (h ▸ hofNat.symm)
  -- what is printable stands for itself, and the rest is written in code units
  next hquote hslash _ _ _ _ _ =>
  split
  · next h =>
    rw [Bool.and_eq_true, decide_eq_true_iff, decide_eq_true_iff] at h
    exact readString?_plain (by simpa using hquote) (by simpa using hslash) h.1
  split
  · next h =>
    have hread := readString?_lone (unit?_digits h) (hvalid.imp_right And.left) cs
    rwa [hofNat] at hread
  · next h =>
    have hread := readString?_unitEscapes (show c.toNat - 0x10000 < 0x100000 by omega) cs
    rwa [Nat.add_sub_cancel' (by omega), hofNat] at hread

theorem readString?_quoted (s rest : List Char) :
    readString? (s.flatMap escapeChar ++ '"' :: rest) = some (s, rest) := by
  induction s with
  | nil => rfl
  | cons c s ih => rw [flatMap_cons, append_assoc, readString?_escapeChar, ih, consRead,
      Option.map_some]

theorem toList_quote (s : String) :
    (quote s).toList = '"' :: (s.toList.flatMap escapeChar ++ ['"']) := by
  simp [quote]

variable {rest : List Char}

theorem readScalar?_writeInt (n : Int) (hrest : Ends rest) :
    readScalar? ((writeInt n).toList ++ rest) = some (.int n, rest) := by
  have hread := readScalar?_of_readNumber? (readNumber?_whole (decide (n < 0)) n.natAbs hrest)
  have hvalue : (if decide (n < 0) then -(n.natAbs : Int) else n.natAbs) = n := by
    by_cases hn : n < 0
    · rw [if_pos (decide_eq_true hn)]
      omega
    · rw [if_neg (by simpa using hn)]
      omega
  rw [hvalue] at hread
  by_cases hn : n < 0 <;> simpa [writeInt, Decimal.digits, hn] using hread

theorem readScalar?_writeFloat (x : Float) (hrest : Ends rest) :
    readScalar? ((writeFloat x).toList ++ rest) = some (.float x, rest) := by
  rw [writeFloat]
  split
  · next hx =>
    rw [Decimal.eq_of_nan hx]
    rfl
  · next neg hx =>
    rw [Decimal.eq_of_infinite hx]
    cases neg <;> rfl
  · next hx => exact Decimal.readScalar?_shortest hx hrest

variable {depth : Nat} {v : Json} {r : Json × List Char}

theorem skipGap_cons (hc : isGap c = false) (cs : List Char) : skipGap (c :: cs) = c :: cs := by
  rw [skipGap, dropWhile_cons, hc]
  rfl

theorem readScalar?_eq_none (hc : c ∈ [' ', '\t', '\n', '\r', ']', '[', '\x7b']) (cs : List Char) :
    readScalar? (c :: cs) = none := by
  simp only [mem_cons, not_mem_nil, or_false] at hc
  rcases hc with rfl | rfl | rfl | rfl | rfl | rfl | rfl <;> rfl

theorem readValue?_of_readScalar? (h : readScalar? cs = some r) (depth : Nat) :
    readValue? (depth + 1) cs = some r := by
  unfold readValue?
  split
  · rw [readScalar?_eq_none (by decide)] at h
    cases h
  · rw [readScalar?_eq_none (by decide)] at h
    cases h
  · exact h

theorem head_of_readValue? (h : readValue? depth cs = some r) :
    ∃ c more, cs = c :: more ∧ isGap c = false ∧ c ≠ ']' := by
  cases depth with
  | zero => cases h
  | succ depth =>
    unfold readValue? at h
    split at h
    · next more => exact ⟨'[', more, rfl, by decide⟩
    · next more => exact ⟨'\x7b', more, rfl, by decide⟩
    · cases cs with
      | nil => cases h
      | cons c more =>
        refine ⟨c, more, rfl, ?_⟩
        have hc : c ∉ [' ', '\t', '\n', '\r', ']', '[', '\x7b'] := by
          intro hc
          rw [readScalar?_eq_none hc] at h
          cases h
        simp only [mem_cons, not_or] at hc
        simp [isGap, hc]

theorem skipGap_of_readValue? (h : readValue? depth cs = some r) : skipGap cs = cs := by
  obtain ⟨c, more, rfl, hgap, -⟩ := head_of_readValue? h
  exact skipGap_cons hgap more

theorem readItems?_last (h : readValue? depth cs = some (v, ']' :: rest)) :
    readItems? (depth + 1) cs = some ([v], rest) := by
  rw [readItems?, skipGap_of_readValue? h, h]
  rfl

theorem readItems?_more {more : List Char} (h : readValue? depth cs = some (v, ',' :: more))
    (hmore : readItems? depth more = some (items, rest)) :
    readItems? (depth + 1) cs = some (v :: items, rest) := by
  rw [readItems?, skipGap_of_readValue? h, h]
  change (readItems? depth more).bind _ = _
  rw [hmore]
  rfl

theorem readValue?_arr (h : readItems? depth cs = some (items, rest)) :
    readValue? (depth + 1) ('[' :: cs) = some (.arr items, rest) := by
  cases depth with
  | zero => cases h
  | succ depth =>
    rw [readValue?]
    split
    · -- the closing bracket is no item
      next after hgap =>
      rw [readItems?, hgap] at h
      obtain ⟨r, hvalue, -⟩ := Option.bind_eq_some_iff.1 h
      obtain ⟨c, more, heq, -, hne⟩ := head_of_readValue? hvalue
      exact absurd (List.cons.inj heq).1.symm hne
    · rw [h]
      rfl

theorem readFields?_step {key : String} {more : List Char}
    (h : readValue? depth cs = some (v, more)) (before : List (String × Json)) :
    readFields? (depth + 1) before ((quote key).toList ++ ':' :: cs) =
      match skipGap more with
      | ',' :: more => readFields? depth (put key v before) more
      | '\x7d' :: after => some (put key v before, after)
      | _ => none := by
  rw [readFields?, toList_quote, cons_append, append_assoc, singleton_append,
    skipGap_cons (by decide)]
  change (readString? _).bind _ = _
  rw [readString?_quoted]
  change (readValue? depth (skipGap cs)).bind _ = _
  rw [skipGap_of_readValue? h, h, String.ofList_toList]
  rfl

theorem readValue?_obj (h : readFields? depth [] cs = some (fields, rest)) :
    readValue? (depth + 1) ('\x7b' :: cs) = some (.obj fields, rest) := by
  cases depth with
  | zero => cases h
  | succ depth =>
    rw [readValue?]
    split
    · next after hgap =>
      rw [readFields?, hgap] at h
      cases h
    · rw [h]
      rfl

/-! ## Values

The nesting that a reader may go down is bounded by the length of the text, which is enough. -/

/-- Every object has each of its keys once. -/
inductive WellKeyed : Json → Prop
  | null : WellKeyed .null
  | bool (b : Bool) : WellKeyed (.bool b)
  | int (n : Int) : WellKeyed (.int n)
  | float (x : Float) : WellKeyed (.float x)
  | str (s : String) : WellKeyed (.str s)
  | arr {items : List Json} (hitems : ∀ v ∈ items, WellKeyed v) : WellKeyed (.arr items)
  | obj {fields : List (String × Json)} (hkeys : (fields.map Prod.fst).Nodup)
      (hfields : ∀ f ∈ fields, WellKeyed f.2) : WellKeyed (.obj fields)

attribute [simp] WellKeyed.null WellKeyed.bool WellKeyed.int WellKeyed.float WellKeyed.str

@[simp] theorem wellKeyed_arr {items : List Json} :
    WellKeyed (.arr items) ↔ ∀ v ∈ items, WellKeyed v :=
  ⟨fun | .arr h => h, .arr⟩

@[simp] theorem wellKeyed_obj {fields : List (String × Json)} :
    WellKeyed (.obj fields) ↔ (fields.map Prod.fst).Nodup ∧ ∀ f ∈ fields, WellKeyed f.2 :=
  ⟨fun | .obj hkeys hfields => ⟨hkeys, hfields⟩, fun h => .obj h.1 h.2⟩

def chars (v : Json) : List Char :=
  (write .compact v).toList

/-- A stored value is read back, whatever follows it, when the nesting is bounded by its length. -/
def Recovered (v : Json) : Prop :=
  ∀ ⦃depth : Nat⦄ ⦃rest : List Char⦄, 2 * (chars v).length < depth → Ends rest →
    readValue? depth (chars v ++ rest) = some (v, rest)

theorem recovered_of_readScalar? (h : ∀ {rest}, Ends rest →
    readScalar? (chars v ++ rest) = some (v, rest)) : Recovered v := by
  intro depth rest hdepth hrest
  obtain ⟨depth, rfl⟩ := Nat.exists_eq_add_one_of_ne_zero (Nat.ne_zero_of_lt hdepth)
  exact readValue?_of_readScalar? (h hrest) depth

def itemChars (items : List Json) : List Char :=
  (join "," (writeAll .compact items)).toList

def fieldChars (fields : List (String × Json)) : List Char :=
  (join "," (writeFields .compact fields)).toList

theorem chars_arr (items : List Json) : chars (.arr items) = '[' :: (itemChars items ++ [']']) := by
  simp [chars, itemChars, write, Style.compact]

theorem chars_obj (fields : List (String × Json)) :
    chars (.obj fields) = '\x7b' :: (fieldChars fields ++ ['\x7d']) := by
  simp [chars, fieldChars, write, Style.compact]

theorem ends_cons (hc : c = ',' ∨ c = ']' ∨ c = '\x7d') (rest : List Char) : Ends (c :: rest) := by
  rintro d ⟨rfl⟩
  exact hc

theorem readItems?_itemChars (hne : items ≠ []) (h : ∀ v ∈ items, Recovered v)
    (hdepth : 2 * (itemChars items).length + 1 < depth) :
    readItems? depth (itemChars items ++ ']' :: rest) = some (items, rest) := by
  induction items generalizing depth with
  | nil => exact absurd rfl hne
  | cons v items ih =>
    -- each item takes one of the depth and is at least one character long, with its comma
    obtain ⟨depth, rfl⟩ := Nat.exists_eq_add_one_of_ne_zero (Nat.ne_zero_of_lt hdepth)
    have hv := h v mem_cons_self
    cases items with
    | nil => exact readItems?_last (hv (Nat.lt_of_succ_lt_succ hdepth) (ends_cons (by simp) rest))
    | cons w items =>
      have hsplit : itemChars (v :: w :: items) = chars v ++ ',' :: itemChars (w :: items) := by
        simp [itemChars, chars, writeAll, join]
      rw [hsplit, length_append, length_cons] at hdepth
      rw [hsplit, append_assoc, cons_append]
      refine readItems?_more (hv (by omega) (ends_cons (by simp) _)) ?_
      exact ih (cons_ne_nil w items) (fun u hu => h u (mem_cons_of_mem v hu)) (by omega)

theorem put_of_not_mem {key : String} (h : key ∉ fields.map Prod.fst) (v : Json) :
    put key v fields = fields ++ [(key, v)] := by
  induction fields with
  | nil => rfl
  | cons f fields ih =>
    rw [map_cons, mem_cons, not_or] at h
    rw [put, if_neg (Ne.symm h.1), ih h.2, cons_append]

theorem readFields?_fieldChars {before : List (String × Json)} (hne : fields ≠ [])
    (hkeys : ((before ++ fields).map Prod.fst).Nodup) (h : ∀ f ∈ fields, Recovered f.2)
    (hdepth : 2 * (fieldChars fields).length + 1 < depth) :
    readFields? depth before (fieldChars fields ++ '\x7d' :: rest) = some
      (before ++ fields, rest) := by
  induction fields generalizing depth before with
  | nil => exact absurd rfl hne
  | cons f fields ih =>
    obtain ⟨key, v⟩ := f
    obtain ⟨depth, rfl⟩ := Nat.exists_eq_add_one_of_ne_zero (Nat.ne_zero_of_lt hdepth)
    have hv : Recovered v := h (key, v) mem_cons_self
    -- the key is none of those before, so the field is put at the end
    have hnew : key ∉ before.map Prod.fst := by
      intro hmem
      rw [map_append, nodup_append] at hkeys
      exact hkeys.2.2 key hmem key mem_cons_self rfl
    cases fields with
    | nil =>
      have hone : fieldChars [(key, v)] = (quote key).toList ++ ':' :: chars v := by
        simp [fieldChars, chars, writeFields, join, Style.compact]
      rw [hone, length_append, length_cons] at hdepth
      rw [hone, append_assoc, cons_append,
        readFields?_step (hv (by omega) (ends_cons (by simp) rest)), put_of_not_mem hnew]
      rfl
    | cons g fields =>
      have hsplit : fieldChars ((key, v) :: g :: fields) =
          (quote key).toList ++ ':' :: (chars v ++ ',' :: fieldChars (g :: fields)) := by
        simp [fieldChars, chars, writeFields, join, Style.compact]
      rw [hsplit, length_append, length_cons, length_append, length_cons] at hdepth
      rw [hsplit, append_assoc, cons_append, append_assoc, cons_append,
        readFields?_step (hv (by omega) (ends_cons (by simp) _)), put_of_not_mem hnew]
      change readFields? depth _ _ = _
      rw [ih (cons_ne_nil g fields) (by simpa using hkeys) (fun u hu => h u (mem_cons_of_mem _ hu))
        (by omega)]
      simp

/-- **A stored value is read back.** -/
theorem recovered_of_wellKeyed (h : WellKeyed v) : Recovered v := by
  induction h with
  | null => exact recovered_of_readScalar? fun _ => rfl
  | bool b =>
    refine recovered_of_readScalar? fun _ => ?_
    cases b <;> rfl
  | int n => exact recovered_of_readScalar? (readScalar?_writeInt n)
  | float x => exact recovered_of_readScalar? (readScalar?_writeFloat x)
  | str s =>
    refine recovered_of_readScalar? fun _ => ?_
    rw [chars, write, toList_quote, cons_append, append_assoc, singleton_append, readScalar?,
      readString?_quoted, Option.map_some]
    dsimp only
    rw [String.ofList_toList]
  | @arr items _ ih =>
    intro depth rest hdepth _
    rw [chars_arr, length_cons, length_append, length_singleton] at hdepth
    obtain ⟨depth, rfl⟩ := Nat.exists_eq_add_one_of_ne_zero (Nat.ne_zero_of_lt hdepth)
    rw [chars_arr, cons_append, append_assoc, singleton_append]
    by_cases hnil : items = []
    · rw [hnil]
      rfl
    · exact readValue?_arr (readItems?_itemChars hnil ih (by omega))
  | @obj fields hkeys _ ih =>
    intro depth rest hdepth _
    rw [chars_obj, length_cons, length_append, length_singleton] at hdepth
    obtain ⟨depth, rfl⟩ := Nat.exists_eq_add_one_of_ne_zero (Nat.ne_zero_of_lt hdepth)
    rw [chars_obj, cons_append, append_assoc, singleton_append]
    by_cases hnil : fields = []
    · rw [hnil]
      rfl
    · exact readValue?_obj (readFields?_fieldChars hnil hkeys ih (by omega))

theorem parse?_write (h : WellKeyed v) : parse? (write .compact v) = some v := by
  have hends : Ends [] := by rintro c ⟨⟩
  have hread := recovered_of_wellKeyed h (show _ < 2 * (chars v).length + 2 by omega) hends
  rw [append_nil] at hread
  -- nothing is left after the value
  change (readValue? (2 * (chars v).length + 2) (skipGap (chars v))).bind _ = _
  rw [skipGap_of_readValue? hread, hread]
  rfl

/-! ## Line ends

No carriage return is ever written, so reading a file as text changes nothing. -/

theorem return_not_mem_toDigits (n : Nat) : '\r' ∉ Nat.toDigits 10 n := by
  intro hmem
  exact absurd (isDigit_of_mem_toDigits hmem) (by decide)

theorem return_not_mem_writeCandidate (c : Decimal.Candidate) :
    '\r' ∉ (Decimal.writeCandidate c).toList := by
  have hdigits := return_not_mem_toDigits c.coef
  have hexp : ∀ e, '\r' ∉ (Decimal.exponentText e).toList := by
    intro e hmem
    rw [Decimal.toList_exponentText, mem_cons, mem_cons] at hmem
    rcases hmem with hmem | hmem | hmem
    · exact absurd hmem (by decide)
    · split at hmem
      all_goals exact absurd hmem (by decide)
    · exact absurd (Decimal.isDigit_of_mem_exponentDigits hmem) (by decide)
  rw [Decimal.writeCandidate]
  split
  · split
    · simp [hdigits]
    · have htake : '\r' ∉ (Nat.toDigits 10 c.coef).take
          ((Nat.toDigits 10 c.coef).length + c.exp).toNat :=
        fun hmem => hdigits (mem_of_mem_take hmem)
      have hdrop : '\r' ∉ (Nat.toDigits 10 c.coef).drop
          ((Nat.toDigits 10 c.coef).length + c.exp).toNat :=
        fun hmem => hdigits (mem_of_mem_drop hmem)
      simp only [String.toList_append, String.toList_ofList, mem_append, htake, not_or]
      refine ⟨⟨⟨not_false, by simp⟩, by decide⟩, ?_⟩
      split
      · decide
      · rwa [String.toList_ofList]
  · split
    · simp
    · next hds => simp_all
    · next hds => simp_all

theorem return_not_mem_writeFloat (x : Float) : '\r' ∉ (writeFloat x).toList := by
  rw [writeFloat]
  split
  · decide
  · split <;> decide
  · next neg mant exp hx =>
    rw [Decimal.shortest, hx]
    simp only [String.toList_append, mem_append, not_or]
    constructor
    · split <;> decide
    · split
      · decide
      · exact return_not_mem_writeCandidate _

theorem return_not_mem_escapeChar (c : Char) : '\r' ∉ escapeChar c := by
  have hunit : ∀ n, '\r' ∉ unitEscape n := by
    intro n
    have hdigit : ∀ k, k < 16 → '\r' ≠ k.digitChar := by decide
    simp only [unitEscape, hex4, map_cons, map_nil, mem_cons, not_mem_nil, or_false, not_or]
    refine ⟨by decide, by decide, ?_, ?_, ?_, ?_⟩ <;> exact hdigit _ (Nat.mod_lt _ (by decide))
  unfold escapeChar
  repeat' split
  any_goals decide
  · -- a return is not printable, so it does not stand for itself
    next h =>
    intro hmem
    obtain rfl := mem_singleton.1 hmem
    exact absurd h (by decide)
  · exact hunit _
  · exact fun hmem => (mem_append.1 hmem).elim (hunit _) (hunit _)

theorem return_not_mem_quote (s : String) : '\r' ∉ (quote s).toList := by
  rw [toList_quote]
  simp [return_not_mem_escapeChar]

theorem return_not_mem_join {ss : List String} (h : ∀ s ∈ ss, '\r' ∉ s.toList) :
    '\r' ∉ (join "," ss).toList := by
  fun_induction join "," ss with
  | case1 => decide
  | case2 s => exact h s mem_cons_self
  | case3 s ss _ ih =>
    simp only [String.toList_append, mem_append, not_or]
    exact ⟨⟨h s mem_cons_self, by decide⟩, ih fun t ht => h t (mem_cons_of_mem s ht)⟩

theorem writeAll_eq_map (style : Style) (items : List Json) :
    writeAll style items = items.map (write style) := by
  induction items with
  | nil => rfl
  | cons v items ih => rw [writeAll, ih, map_cons]

theorem writeFields_eq_map (style : Style) (fields : List (String × Json)) :
    writeFields style fields = fields.map fun f => quote f.1 ++ style.key ++ write style f.2 := by
  induction fields with
  | nil => rfl
  | cons f fields ih => rw [writeFields, ih, map_cons]

theorem return_not_mem_chars (h : WellKeyed v) : '\r' ∉ chars v := by
  induction h with
  | null => decide
  | bool b => cases b <;> decide
  | int n =>
    rw [chars, write, writeInt, String.toList_append, mem_append, not_or]
    constructor
    · split <;> decide
    · rw [Decimal.digits, String.toList_ofList]
      exact return_not_mem_toDigits _
  | float x => exact return_not_mem_writeFloat x
  | str s => exact return_not_mem_quote s
  | @arr items _ ih =>
    have hitems : '\r' ∉ itemChars items := by
      refine return_not_mem_join fun s hs => ?_
      rw [writeAll_eq_map] at hs
      obtain ⟨v, hv, rfl⟩ := mem_map.1 hs
      exact ih v hv
    rw [chars_arr]
    simp [hitems]
  | @obj fields _ _ ih =>
    have hfields : '\r' ∉ fieldChars fields := by
      refine return_not_mem_join fun s hs => ?_
      rw [writeFields_eq_map] at hs
      obtain ⟨f, hf, rfl⟩ := mem_map.1 hs
      rw [String.toList_append, String.toList_append]
      simp only [mem_append, not_or]
      exact ⟨⟨return_not_mem_quote f.1, by decide⟩, ih f hf⟩
    rw [chars_obj]
    simp [hfields]

/-- **A stored value is read back from the text of its file.** -/
theorem parse?_unixLines_write (h : WellKeyed v) :
    parse? (unixLines (write .compact v)) = some v := by
  have hlines : unixLines (write .compact v) = write .compact v :=
    Text.unixLines_of_not_mem (return_not_mem_chars h)
  rw [hlines, parse?_write h]

end CodeAtlas.Json
