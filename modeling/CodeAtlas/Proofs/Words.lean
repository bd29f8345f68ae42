import Mathlib.Data.List.Forall2
import Mathlib.Data.List.Induction
import CodeAtlas.Graph.Names
import CodeAtlas.Text.WholeWord

/-!
# Words in the text of a call

Two readers look for words in the text of a call. One asks whether a given name stands in it between
two word edges. The other scans it once and keeps the last word that stands before an opening
parenthesis.
-/

namespace CodeAtlas.Text

open List

/-- Letter by letter the same, case ignored. -/
def SameLetters (name word : List Char) : Prop :=
  List.Forall₂ (fun n c => sameLetter n c = true) name word

theorem sameLetter_self (c : Char) : sameLetter c c := by
  simp [sameLetter]

theorem SameLetters.refl (word : List Char) : SameLetters word word :=
  forall₂_same.2 fun c _ => sameLetter_self c

variable {name text : List Char} {before : Option Char}

theorem readName_eq_some_iff {rest : List Char} {last : Option Char} :
    readName name before text = some (last, rest) ↔
      ∃ word, text = word ++ rest ∧ SameLetters name word ∧ last = word.getLast?.or before := by
  induction name generalizing before text with
  | nil =>
    constructor
    · intro h
      obtain ⟨rfl, rfl⟩ := Prod.mk.inj (Option.some.inj h)
      exact ⟨[], rfl, .nil, rfl⟩
    · rintro ⟨word, rfl, hword, rfl⟩
      rw [forall₂_nil_left_iff.1 hword]
      rfl
  | cons n ns ih =>
    cases text with
    | nil =>
      constructor
      · intro h
        cases h
      · rintro ⟨word, hnil, hword, -⟩
        rw [(append_eq_nil_iff.1 hnil.symm).1] at hword
        cases hword
    | cons c cs =>
      rw [readName]
      constructor
      · intro h
        split at h
        · next hletter =>
          obtain ⟨word, rfl, hword, rfl⟩ := ih.1 h
          refine ⟨c :: word, rfl, .cons hletter hword, ?_⟩
          rw [getLast?_cons, Option.some_or]
          cases word.getLast? <;> rfl
        · cases h
      · rintro ⟨word, htext, hword, rfl⟩
        cases hword with
        | cons hletter hword =>
          obtain ⟨rfl, rfl⟩ := List.cons.inj htext
          rw [if_pos hletter, ih]
          refine ⟨_, rfl, hword, ?_⟩
          rw [getLast?_cons, Option.some_or]
          cases List.getLast? _ <;> rfl

theorem wordHere_iff :
    wordHere name before text ↔
      ∃ word rest, text = word ++ rest ∧ SameLetters name word ∧ wordEdge before text.head? = true ∧
        wordEdge (word.getLast?.or before) rest.head? = true := by
  rw [wordHere, Bool.and_eq_true]
  constructor
  · rintro ⟨hfirst, hlast⟩
    split at hlast
    · next last rest hread =>
      obtain ⟨word, htext, hword, rfl⟩ := readName_eq_some_iff.1 hread
      exact ⟨word, rest, htext, hword, hfirst, hlast⟩
    · cases hlast
  · rintro ⟨word, rest, htext, hword, hfirst, hlast⟩
    refine ⟨hfirst, ?_⟩
    rw [readName_eq_some_iff.2 ⟨word, htext, hword, rfl⟩]
    exact hlast

/-- The name stands somewhere in what follows `before`. Induction on the text: it stands at its
front or further on, and further on the first character of the text has become the one before. -/
theorem wordAfter_iff :
    wordAfter name before text ↔
      ∃ pre word post, text = pre ++ (word ++ post) ∧ SameLetters name word ∧
        wordEdge (pre.getLast?.or before) (word ++ post).head? = true ∧
        wordEdge ((pre ++ word).getLast?.or before) post.head? = true := by
  induction text generalizing before with
  | nil =>
    rw [wordAfter, wordHere_iff]
    constructor
    · rintro ⟨word, rest, htext, hword, hfirst, hlast⟩
      obtain ⟨rfl, rfl⟩ := append_eq_nil_iff.1 htext.symm
      exact ⟨[], [], [], rfl, hword, hfirst, hlast⟩
    · rintro ⟨pre, word, post, htext, hword, hfirst, hlast⟩
      obtain ⟨rfl, hnil⟩ := append_eq_nil_iff.1 htext.symm
      obtain ⟨rfl, rfl⟩ := append_eq_nil_iff.1 hnil
      exact ⟨[], [], rfl, hword, hfirst, hlast⟩
  | cons c cs ih =>
    have hor (xs : List Char) : (c :: xs).getLast?.or before = xs.getLast?.or (some c) := by
      rw [getLast?_cons, Option.some_or]
      cases xs.getLast? <;> rfl
    rw [wordAfter, Bool.or_eq_true, wordHere_iff, ih]
    constructor
    · rintro (⟨word, rest, htext, hword, hfirst, hlast⟩ | ⟨pre, word, post, rfl, hword, hfirst,
        hlast⟩)
      · rw [htext] at hfirst
        exact ⟨[], word, rest, htext, hword, hfirst, hlast⟩
      · refine ⟨c :: pre, word, post, rfl, hword, ?_, ?_⟩
        · rw [hor]
          exact hfirst
        · rw [cons_append, hor]
          exact hlast
    · rintro ⟨pre, word, post, htext, hword, hfirst, hlast⟩
      cases pre with
      | nil =>
        rw [nil_append] at htext hlast
        refine .inl ⟨word, post, htext, hword, ?_, hlast⟩
        rw [htext]
        exact hfirst
      | cons d pre =>
        obtain ⟨rfl, rfl⟩ := List.cons.inj htext
        rw [hor] at hfirst
        rw [cons_append, hor] at hlast
        exact .inr ⟨pre, word, post, rfl, hword, hfirst, hlast⟩

/-- **The search is for the name between two word edges.** -/
theorem containsWord_iff {name text : String} :
    containsWord name text ↔
      ∃ pre word post, text.toList = pre ++ (word ++ post) ∧ SameLetters name.toList word ∧
        wordEdge pre.getLast? (word ++ post).head? = true ∧
        wordEdge (pre ++ word).getLast? post.head? = true := by
  simp only [containsWord, wordAfter_iff, Option.or_none]

/-- `word` stands between `pre` and `post`, and no word character touches it. -/
structure Isolated (pre word post : List Char) : Prop where
  ne_nil : word ≠ []
  letters : ∀ c ∈ word, isWord c = true
  before : pre.getLast?.any isWord = false
  after : post.head?.any isWord = false

theorem head?_any_of_letters {word : List Char} (hne : word ≠ []) (hword : ∀ c ∈ word, isWord c)
    (post : List Char) : (word ++ post).head?.any isWord := by
  obtain ⟨c, cs, rfl⟩ := exists_cons_of_ne_nil hne
  exact hword c mem_cons_self

theorem getLast?_any_of_letters {word : List Char} (hne : word ≠ []) (hword : ∀ c ∈ word, isWord c)
    (pre : List Char) : (pre ++ word).getLast?.any isWord := by
  rw [getLast?_append_of_ne_nil _ hne, getLast?_eq_some_getLast hne]
  exact hword _ (getLast_mem hne)

/-- A word that nothing touches is found. -/
theorem Isolated.containsWord {pre word post : List Char} {name text : String}
    (h : Isolated pre word post)
    (htext : text.toList = pre ++ (word ++ post)) (hname : SameLetters name.toList word) :
    containsWord name text := by
  refine containsWord_iff.2 ⟨pre, word, post, htext, hname, ?_, ?_⟩
  · rw [wordEdge, h.before, head?_any_of_letters h.ne_nil h.letters]
    rfl
  · rw [wordEdge, h.after, getLast?_any_of_letters h.ne_nil h.letters]
    rfl

theorem inRanges_eq_false {ranges others : List (Nat × Nat)} {n : Nat}
    (hapart : ∀ r ∈ ranges, ∀ o ∈ others, r.2 < o.1 ∨ o.2 < r.1) (hn : inRanges ranges n) :
    inRanges others n = false := by
  obtain ⟨r, hr, hin⟩ := any_eq_true.1 hn
  refine any_eq_false.2 fun o ho hout => ?_
  have hlt := hapart r hr o ho
  simp only [Bool.and_eq_true, decide_eq_true_eq] at hin hout
  omega

theorem of_ascii {P : Char → Prop} (hall : ∀ n : Fin 128, P (Char.ofNat n)) {c : Char}
    (hc : c.toNat < 128) : P c := by
  have hn := hall ⟨c.toNat, hc⟩
  rwa [Char.ofNat_toNat] at hn

theorem isWord_of_isBlank {c : Char} (h : isBlank c) : isWord c = false := by
  by_cases hascii : c.toNat < 128
  · exact of_ascii (P := fun c => isBlank c → isWord c = false) (by decide +kernel) hascii h
  · rw [isWord, if_neg hascii]
    exact inRanges_eq_false (by decide +kernel) h

end CodeAtlas.Text

namespace CodeAtlas

open List
open Text (isWord isBlank Isolated isWord_of_isBlank)

/-! ## The scan for called words

The scan is a machine with a state. Its runs over words and blanks are put together to whole
calls. -/

namespace CallScan

variable {st : CallScan} {c : Char}

theorem step_word (hc : isWord c) (hgap : st.gap = false) :
    st.step c = { st with word := c :: st.word } := by
  simp [step, hc, hgap]

theorem step_paren : st.step '(' =
    { word := [], gap := false, found := if st.word.isEmpty then st.found
      else some st.word.reverse } :=
  rfl

theorem step_blank (hc : isBlank c) (hword : st.word ≠ []) :
    st.step c = { st with gap := true } := by
  have hparen : c ≠ '(' := by
    rintro rfl
    exact absurd hc (by decide)
  simp [step, isWord_of_isBlank hc, hparen, hc, hword]

def Ready (st : CallScan) : Prop :=
  st.gap = true ∨ st.word = []

theorem step_ready (hst : st.Ready) (hc : isWord c) :
    st.step c = { st with word := [c], gap := false } := by
  rcases hst with hgap | hnil
  · simp [step, hc, hgap]
  · cases hgap : st.gap <;> simp [step, hc, hgap, hnil]

theorem ready_step (hc : isWord c = false) : (st.step c).Ready := by
  unfold step
  rw [if_neg (by simp [hc])]
  split
  · exact .inr rfl
  · split
    · exact .inl rfl
    · exact .inr rfl

theorem ready_foldl {pre : List Char} (hpre : pre.getLast?.any isWord = false) :
    (pre.foldl step {}).Ready := by
  rcases eq_nil_or_concat pre with rfl | ⟨cs, c, rfl⟩
  · exact .inr rfl
  · rw [concat_eq_append, getLast?_concat] at hpre
    rw [concat_eq_append, foldl_concat]
    exact ready_step hpre

theorem foldl_letters {word : List Char} (hword : ∀ c ∈ word, isWord c)
    (hgap : st.gap = false) : word.foldl step st = { st with word := word.reverse ++ st.word } := by
  induction word generalizing st with
  | nil => rfl
  | cons c cs ih =>
    have hgap' : ({ st with word := c :: st.word } : CallScan).gap = false := hgap
    rw [foldl_cons, step_word (hword c mem_cons_self) hgap,
      ih (fun d hd => hword d (mem_cons_of_mem c hd)) hgap']
    simp

theorem foldl_word {word : List Char} (hst : st.Ready) (hne : word ≠ [])
    (hword : ∀ c ∈ word, isWord c) :
    word.foldl step st = { st with word := word.reverse, gap := false } := by
  obtain ⟨c, cs, rfl⟩ := exists_cons_of_ne_nil hne
  rw [foldl_cons, step_ready hst (hword c mem_cons_self),
    foldl_letters (fun d hd => hword d (mem_cons_of_mem c hd)) rfl]
  simp

theorem word_foldl_blanks {blanks : List Char} (hblanks : ∀ c ∈ blanks, isBlank c)
    (hword : st.word ≠ []) : (blanks.foldl step st).word = st.word := by
  induction blanks generalizing st with
  | nil => rfl
  | cons c cs ih =>
    rw [foldl_cons, step_blank (hblanks c mem_cons_self) hword]
    exact ih (fun d hd => hblanks d (mem_cons_of_mem c hd)) hword

theorem step_found (st : CallScan) (c : Char) :
    (st.step c).found = (step { st with found := none } c).found.or st.found := by
  unfold step
  split
  · split <;> rfl
  · split
    · dsimp only
      split <;> rfl
    · split <;> rfl

theorem step_forget (st : CallScan) (c : Char) :
    { st.step c with found := none } = { step { st with found := none } c with found := none } := by
  unfold step
  split
  · split <;> rfl
  · split
    · rfl
    · split <;> rfl

theorem found_foldl (cs : List Char) (st : CallScan) :
    (cs.foldl step st).found = (cs.foldl step { st with found := none }).found.or st.found := by
  induction cs generalizing st with
  | nil => rfl
  | cons c cs ih =>
    rw [foldl_cons, foldl_cons, ih (st.step c), ih (step { st with found := none } c), step_forget,
      step_found, Option.or_assoc]

end CallScan

/-- **What is called last in a call.** The text of a call is `pre`, the word that is called, blanks
and what the parenthesis opens. The scan answers with a word that is called behind the parenthesis
and, only if there is none, with the word before it. -/
theorem lastCalled?_call {pre word blanks : List Char} (hpre : pre.getLast?.any isWord = false)
    (hne : word ≠ []) (hword : ∀ c ∈ word, isWord c) (hblanks : ∀ c ∈ blanks, isBlank c)
    (rest : List Char) :
    lastCalled? (pre ++ (word ++ (blanks ++ '(' :: rest))) = some
      ((lastCalled? rest).getD word) := by
  have hread := CallScan.foldl_word (CallScan.ready_foldl hpre) hne hword
  have hne' : (word.foldl CallScan.step (pre.foldl CallScan.step {})).word ≠ [] := by
    simpa [hread] using hne
  have hkept := CallScan.word_foldl_blanks hblanks hne'
  rw [lastCalled?, foldl_append, foldl_append, foldl_append, foldl_cons, CallScan.step_paren,
    hkept, hread, CallScan.found_foldl]
  -- behind the parenthesis the scan is as at the start, but for what it has found
  rw [if_neg (by simpa using hne), reverse_reverse, lastCalled?]
  cases (rest.foldl CallScan.step {}).found <;> rfl

namespace CallScan

/-- What the scan keeps while it reads `cs`: the word that it read last, with what came after it,
and the word that it found, which stands alone in what was read. -/
structure Follows (cs : List Char) (st : CallScan) : Prop where
  fresh : st.word = [] → cs.getLast?.any isWord = false
  word : st.word ≠ [] → ∃ pre rest, cs = pre ++ (st.word.reverse ++ rest) ∧
    (∀ c ∈ st.word, isWord c = true) ∧
    pre.getLast?.any isWord = false ∧ (∀ c ∈ rest, isWord c = false) ∧ (rest = [] ↔ st.gap = false)
  found : ∀ w, st.found = some w → ∃ pre post, cs = pre ++ (w ++ post) ∧ Isolated pre w post ∧
    post ≠ []

theorem follows_nil : Follows [] {} where
  fresh _ := rfl
  word h := absurd rfl h
  found _ h := by cases h

theorem head?_any_concat {rest : List Char} {c : Char} (hrest : ∀ d ∈ rest, isWord d = false)
    (hc : isWord c = false) : (rest ++ [c]).head?.any isWord = false := by
  cases rest with
  | nil => exact hc
  | cons d ds => exact hrest d mem_cons_self

theorem getLast?_any_concat {cs : List Char} {c : Char} :
    (cs ++ [c]).getLast?.any isWord = isWord c := by
  rw [getLast?_concat, Option.any_some]

variable {cs : List Char}

theorem Follows.found_concat (h : Follows cs st) {w : List Char} (hw : st.found = some w)
    (c : Char) :
    ∃ pre post, cs ++ [c] = pre ++ (w ++ post) ∧ Isolated pre w post ∧ post ≠ [] := by
  obtain ⟨pre, post, rfl, halone, hpost⟩ := h.found w hw
  refine ⟨pre, post ++ [c], by simp, ⟨halone.ne_nil, halone.letters, halone.before, ?_⟩, by simp⟩
  rw [head?_append_of_ne_nil _ hpost]
  exact halone.after

theorem Follows.step_word (h : Follows cs st) (hc : isWord c) :
    Follows (cs ++ [c]) (st.step c) := by
  by_cases hready : st.Ready
  · -- a new word begins, and nothing before it touches it
    have hlast : cs.getLast?.any isWord = false := by
      by_cases hnil : st.word = []
      · exact h.fresh hnil
      · obtain ⟨pre, rest, rfl, -, -, hrest, hgap⟩ := h.word hnil
        have hne : rest ≠ [] := by
          intro hnone
          rcases hready with hgap' | hnil'
          · rw [hgap.1 hnone] at hgap'
            cases hgap'
          · exact hnil hnil'
        rw [← append_assoc, getLast?_append_of_ne_nil _ hne, getLast?_eq_some_getLast hne]
        exact hrest _ (getLast_mem hne)
    rw [step_ready hready hc]
    refine ⟨fun hnil => absurd hnil (by simp), fun _ => ?_, fun w hw => h.found_concat hw c⟩
    exact ⟨cs, [], by simp, by simpa using hc, hlast, by simp, by simp⟩
  · -- the word that was read last goes on
    obtain ⟨hgap, hne⟩ := not_or.1 hready
    rw [Bool.not_eq_true] at hgap
    rw [CallScan.step_word hc hgap]
    refine ⟨fun hnil => absurd hnil (by simp), fun _ => ?_, fun w hw => h.found_concat hw c⟩
    obtain ⟨pre, rest, rfl, hletters, hpre, -, hrest⟩ := h.word hne
    rw [hrest.2 hgap]
    refine ⟨pre, [], by simp, ?_, hpre, by simp, by simpa using hgap⟩
    intro d hd
    rcases mem_cons.1 hd with rfl | hd
    · exact hc
    · exact hletters d hd

theorem Follows.step_other (h : Follows cs st) (hc : isWord c = false) :
    Follows (cs ++ [c]) (st.step c) := by
  have hfresh : (cs ++ [c]).getLast?.any isWord = false := by rw [getLast?_any_concat, hc]
  unfold step
  rw [if_neg (by simp [hc])]
  split
  · -- a parenthesis: a word that only blanks divide from it is found
    refine ⟨fun _ => hfresh, fun hne => absurd rfl hne, fun w hw => ?_⟩
    dsimp only at hw
    split at hw
    · exact h.found_concat hw c
    · next hne =>
      rw [List.isEmpty_iff] at hne
      obtain ⟨pre, rest, rfl, hletters, hpre, hrest, -⟩ := h.word hne
      rw [← Option.some.inj hw]
      refine ⟨pre,
        rest ++ [c], by simp, ⟨by simpa using hne, ?_, hpre, head?_any_concat hrest hc⟩, by simp⟩
      simpa using hletters
  · split
    · next hblank =>
      rw [Bool.and_eq_true] at hblank
      have hne : st.word ≠ [] := by simpa using hblank.2
      refine ⟨fun hnil => absurd hnil hne, fun _ => ?_, fun w hw => h.found_concat hw c⟩
      obtain ⟨pre, rest, rfl, hletters, hpre, hrest, -⟩ := h.word hne
      refine ⟨pre, rest ++ [c], by simp, hletters, hpre, ?_, by simp⟩
      intro d hd
      rcases mem_append.1 hd with hd | hd
      · exact hrest d hd
      · rw [mem_singleton.1 hd]
        exact hc
    · exact ⟨fun _ => hfresh, fun hne => absurd rfl hne, fun w hw => h.found_concat hw c⟩

theorem follows_foldl (cs : List Char) : Follows cs (cs.foldl step {}) := by
  induction cs using List.reverseRecOn with
  | nil => exact follows_nil
  | append_singleton cs c ih =>
    rw [foldl_concat]
    cases hc : isWord c with
    | true => exact ih.step_word hc
    | false => exact ih.step_other hc

end CallScan

/-- What the scan finds stands as a word in the text. -/
theorem isolated_lastCalled {cs w : List Char} (h : lastCalled? cs = some w) :
    ∃ pre post, cs = pre ++ (w ++ post) ∧ Isolated pre w post := by
  obtain ⟨pre, post, hcs, halone, -⟩ := (CallScan.follows_foldl cs).found w h
  exact ⟨pre, post, hcs, halone⟩

end CodeAtlas
