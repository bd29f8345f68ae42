import CodeAtlas.Proofs.Words

/-!
# Lower case, character by character

The lower-case form of a text is read off a table of runs, with two exceptions for letters whose
form depends on their neighbours or has two characters. What the table does to a character outside
ASCII is known by its run (`lowerChar_cases`), and one check of all runs tells where their images
lie (`lowerRuns_images`).
-/

namespace CodeAtlas.Text

open List

variable {c d : Char}

theorem lowerChar_cases (hc : ¬ c.toNat < 128) : lowerChar c = c ∨
    ∃ r ∈ lowerRuns, r.1 ≤ c.toNat ∧ c.toNat ≤ r.2.1 ∧ lowerChar c = Char.ofNat
      (c.toNat + r.2.2.2).toNat := by
  rw [lowerChar, if_neg hc, shiftIn]
  split
  · next r hr =>
    have hin := find?_some hr
    simp only [Bool.and_eq_true, decide_eq_true_eq] at hin
    exact .inr ⟨r, mem_of_find?_eq_some hr, hin.1.1, hin.1.2, rfl⟩
  · left
    rw [Int.add_zero, Int.toNat_natCast, Char.ofNat_toNat]

/-- The runs lead to code points from the letters on. Those that lead into ASCII from outside have
one member each, which is a word character and goes to a letter. -/
theorem lowerRuns_images : ∀ r ∈ lowerRuns, 65 ≤ (r.1 : Int) + r.2.2.2 ∧
    ((r.2.1 : Int) + r.2.2.2 < 0xD800 ∨ 0xE000 ≤ (r.1 : Int) + r.2.2.2 ∧
      (r.2.1 : Int) + r.2.2.2 < 0x110000) ∧
    (r.2.1 < 128 ∨ 128 ≤ (r.1 : Int) + r.2.2.2 ∨ r.1 = r.2.1 ∧ isWord (Char.ofNat r.1) ∧
      (Char.ofNat ((r.1 : Int) + r.2.2.2).toNat).isAlpha) := by
  decide +kernel

theorem toNat_of_run {r : Nat × Nat × Nat × Int} (hr : r ∈ lowerRuns) (hfirst : r.1 ≤ c.toNat)
    (hlast : c.toNat ≤ r.2.1) :
    ((Char.ofNat (c.toNat + r.2.2.2).toNat).toNat : Int) = c.toNat + r.2.2.2 := by
  obtain ⟨hlow, hhigh, -⟩ := lowerRuns_images r hr
  have hvalid : (c.toNat + r.2.2.2).toNat.isValidChar := by
    unfold Nat.isValidChar
    omega
  have hmoved : (Char.ofNat (c.toNat + r.2.2.2).toNat).toNat = (c.toNat + r.2.2.2).toNat := by
    rw [Char.ofNat, dif_pos hvalid]
    rfl
  omega

theorem lowerChar_eq_iff (hd : d.toNat < 128 ∧ d.isAlpha = false) : lowerChar c = d ↔ c = d := by
  obtain ⟨hascii, hletter⟩ := hd
  have hself : lowerChar d = d :=
    of_ascii (P := fun d => d.isAlpha = false → lowerChar d = d) (by decide +kernel) hascii hletter
  refine ⟨fun h => ?_, fun h => h ▸ hself⟩
  by_cases hc : c.toNat < 128
  · rw [← h] at hletter ⊢
    exact of_ascii (P := fun c => (lowerChar c).isAlpha = false → c = lowerChar c)
      (by decide +kernel) hc hletter
  · rcases lowerChar_cases hc with hsame | ⟨r, hr, hfirst, hlast, himage⟩
    · exact hsame.symm.trans h
    · -- the run leads to a letter or out of ASCII
      have hmoved := toNat_of_run hr hfirst hlast
      rw [← himage, h] at hmoved
      obtain ⟨-, -, hin | hout | ⟨hone, -, halpha⟩⟩ := lowerRuns_images r hr
      · omega
      · omega
      · have hcr : c.toNat = r.1 := by omega
        rw [← hcr, ← himage, h, hletter] at halpha
        cases halpha

theorem mem_lowerAfter_iff (hd : d.toNat < 128 ∧ d.isAlpha = false) (before cs : List Char) :
    d ∈ lowerAfter before cs ↔ d ∈ cs := by
  have hne {m : Char} (hm : 128 ≤ m.toNat ∨ m.isAlpha) : d ≠ m := by
    rintro rfl
    rcases hm with hm | hm
    · omega
    · simp [hm] at hd
  induction cs generalizing before with
  | nil => rfl
  | cons c cs ih =>
    rw [lowerAfter]
    refine mem_append.trans ((or_congr ?_ (ih (c :: before))).trans mem_cons.symm)
    -- the final and the other sigma, the two characters of the dotted capital I, and the table
    split
    · next hsigma =>
      have hc : d ≠ c := hne (.inl (by omega))
      split
      · simpa [hc] using hne (by decide)
      · simpa [hc] using hne (by decide)
    · split
      · next hdotted =>
        have hc : d ≠ c := hne (.inl (by omega))
        simpa [hc] using ⟨hne (by decide), hne (by decide)⟩
      · rw [mem_singleton, eq_comm, lowerChar_eq_iff hd, eq_comm]

/-- Lower case neither makes nor removes a character of ASCII that is no letter, such as the
separators of qualified names. -/
theorem mem_lowerChars_iff (hd : d.toNat < 128 ∧ d.isAlpha = false) {cs : List Char} :
    d ∈ lowerChars cs ↔ d ∈ cs :=
  mem_lowerAfter_iff hd [] cs

theorem length_lowerAfter (before cs : List Char) :
    (lowerAfter before cs).length = cs.length + cs.countP fun c => c.toNat = 0x130 := by
  induction cs generalizing before with
  | nil => rfl
  | cons c cs ih =>
    simp only [lowerAfter, length_append, ih, length_cons, countP_cons, decide_eq_true_eq]
    by_cases hsigma : c.toNat = 0x3A3
    · have hplain : c.toNat ≠ 0x130 := by omega
      rw [if_pos hsigma, if_neg hplain]
      split
      · rw [length_singleton]
        omega
      · rw [length_singleton]
        omega
    · rw [if_neg hsigma]
      by_cases hdotted : c.toNat = 0x130
      · rw [if_pos hdotted, if_pos hdotted, length_cons, length_singleton]
        omega
      · rw [if_neg hdotted, if_neg hdotted, length_singleton]
        omega

/-- What is put in front of a text shows in its lower-case form. -/
theorem eq_nil_of_lowerChars_append {front back : List Char}
    (h : lowerChars (front ++ back) = lowerChars back) : front = [] := by
  have hlength := congrArg List.length h
  rw [lowerChars, lowerChars, length_lowerAfter, length_lowerAfter, length_append,
    countP_append] at hlength
  exact length_eq_zero_iff.1 (by omega)

/-- An identifier: letters, digits and underscores of ASCII, and at least one of them. -/
structure IsIdentifier (name : List Char) : Prop where
  ne_nil : name ≠ []
  letters : ∀ c ∈ name, c.toNat < 128 ∧ isWord c = true

theorem lowerChar_lt_of_ascii (hc : c.toNat < 128) : (lowerChar c).toNat < 128 :=
  of_ascii (P := fun c => (lowerChar c).toNat < 128) (by decide +kernel) hc

theorem isWord_of_lowerChar_eq (hd : d.toNat < 128) (hword : isWord d)
    (h : lowerChar c = lowerChar d) : isWord c := by
  have hsame {c : Char} (hc : c.toNat < 128) : isWord (lowerChar c) = isWord c :=
    of_ascii (P := fun c => isWord (lowerChar c) = isWord c) (by decide +kernel) hc
  by_cases hc : c.toNat < 128
  · rw [← hsame hc, h, hsame hd, hword]
  · have hlow := lowerChar_lt_of_ascii hd
    rw [← h] at hlow
    rcases lowerChar_cases hc with hself | ⟨r, hr, hfirst, hlast, himage⟩
    · rw [hself] at hlow
      exact absurd hlow hc
    · -- few runs lead into ASCII
      have hmoved := toNat_of_run hr hfirst hlast
      rw [← himage] at hmoved
      obtain ⟨-, -, hascii | hout | ⟨hone, hletter, -⟩⟩ := lowerRuns_images r hr
      · omega
      · omega
      · have hcr : c.toNat = r.1 := by omega
        rwa [← hcr, Char.ofNat_toNat] at hletter

theorem lowerAfter_cons_ascii (hd : d.toNat < 128) (before cs : List Char) :
    lowerAfter before (d :: cs) = lowerChar d :: lowerAfter (d :: before) cs := by
  rw [lowerAfter, if_neg (by omega), if_neg (by omega)]
  rfl

theorem sameLetters_of_lowerAfter_eq {name word before before' : List Char}
    (hname : ∀ d ∈ name, d.toNat < 128 ∧ isWord d)
    (h : lowerAfter before word = lowerAfter before' name) :
    SameLetters name word ∧ ∀ c ∈ word, isWord c := by
  induction name generalizing word before before' with
  | nil =>
    cases word with
    | nil => exact ⟨.nil, by simp⟩
    | cons c cs =>
      rw [lowerAfter, lowerAfter] at h
      split at h <;> split at h <;> simp at h
  | cons d ds ih =>
    obtain ⟨hascii, hword⟩ := hname d mem_cons_self
    have hrest : ∀ e ∈ ds, e.toNat < 128 ∧ isWord e :=
      fun e he => hname e (mem_cons_of_mem d he)
    have hlow := lowerChar_lt_of_ascii hascii
    rw [lowerAfter_cons_ascii hascii] at h
    cases word with
    | nil => cases h
    | cons c cs =>
      rw [lowerAfter] at h
      split at h
      · -- no sigma in lower case is in ASCII
        split at h
        · rw [← (List.cons.inj h).1] at hlow
          exact absurd hlow (by decide)
        · rw [← (List.cons.inj h).1] at hlow
          exact absurd hlow (by decide)
      · split at h
        · -- nor is the dot that is left of a dotted capital I
          have hdot := (List.cons.inj h).2
          cases ds with
          | nil => cases hdot
          | cons e es =>
            have he := (hrest e mem_cons_self).1
            rw [lowerAfter_cons_ascii he] at hdot
            have hlow' := lowerChar_lt_of_ascii he
            rw [← (List.cons.inj hdot).1] at hlow'
            exact absurd hlow' (by decide)
        · obtain ⟨hletter, htail⟩ := List.cons.inj h
          obtain ⟨hsame, hletters⟩ := ih hrest htail
          have hc := isWord_of_lowerChar_eq hascii hword hletter
          refine ⟨.cons (by simp [sameLetter, hletter]) hsame, ?_⟩
          intro e he
          rcases mem_cons.1 he with rfl | he
          · exact hc
          · exact hletters e he

/-- A text that has the lower-case form of an ASCII word is that word, case ignored. -/
theorem sameLetters_of_lower_eq {name word : List Char} (hname : IsIdentifier name)
    (h : lowerChars word = lowerChars name) : SameLetters name word ∧ ∀ c ∈ word, isWord c :=
  sameLetters_of_lowerAfter_eq hname.letters h

theorem nextCased_slash (front back : List Char) :
    nextCased (front ++ '/' :: back) = nextCased front := by
  induction front with
  | nil =>
    have hslash : inRanges caseIgnorableRanges '/'.toNat = false ∧
        inRanges casedRanges '/'.toNat = false := by
      decide +kernel
    rw [nil_append, nextCased.eq_def, nextCased.eq_def]
    simp only [hslash, Bool.false_eq_true, if_false]
  | cons c front ih => rw [cons_append, nextCased, nextCased, ih]

/-- The lower-case form of a path is that of its segments. -/
theorem lowerAfter_slash (before front back : List Char) :
    lowerAfter before (front ++ '/' :: back) = lowerAfter before front ++ '/' ::
      lowerChars back := by
  have hback (seen : List Char) :
      lowerAfter (seen ++ '/' :: (front.reverse ++ before)) back = lowerAfter seen back := by
    induction back generalizing seen with
    | nil => rfl
    | cons c back ih =>
      rw [lowerAfter, lowerAfter, nextCased_slash]
      exact congrArg _ (ih (c :: seen))
  induction front generalizing before with
  | nil =>
    rw [nil_append, lowerAfter_cons_ascii (by decide)]
    exact congrArg _ (hback [])
  | cons c front ih =>
    rw [cons_append, lowerAfter, lowerAfter, nextCased_slash, ih, append_assoc]
    simpa using hback

end CodeAtlas.Text
