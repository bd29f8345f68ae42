import CodeAtlas.Proofs.LogRecords

/-!
# Who is credited with a line

Lines with their revisions are written one after the other: a header for every line, what is known
about its revision where the revision occurs for the first time, and the line itself behind a tab.
-/

namespace CodeAtlas.History

open List
open Text (cut isBlank join skip splitChar startsWith trim words)
open Decimal (digits)
open BlameReading (step)

/-! ## Written lines

The format: a header, what is known about the revision, and the line. -/

structure BlamedLine where
  revision : String
  original : Nat
  final : Nat
  /-- How many lines the group has that this line begins, if it begins one. -/
  count : Option Nat := none
  content : String

structure Commits where
  author : String → String
  /-- The lines about a revision besides the one with its author. -/
  others : String → List String

namespace BlamedLine

def header (l : BlamedLine) : String :=
  join " " ([l.revision, digits l.original, digits l.final] ++ (l.count.map digits).toList)

def own (c : Commits) (l : BlamedLine) : BlameLine :=
  ⟨l.final, cut 8 l.revision, c.author l.revision, l.content⟩

def group (c : Commits) (known : List String) (l : BlamedLine) : List String :=
  l.header :: ((if l.revision ∈ known then [] else ("author " ++ c.author l.revision) ::
    c.others l.revision) ++ ["\t" ++ l.content])

end BlamedLine

def groups (c : Commits) : (known : List String) → List BlamedLine → List String
  | _, [] => []
  | known, l :: rest => l.group c known ++ groups c (l.revision :: known) rest

def blameText (c : Commits) (lines : List BlamedLine) : String :=
  String.join ((groups c [] lines).map (· ++ "\n"))

def otherKeys : List String :=
  ["author-mail", "author-time", "author-tz", "committer", "committer-mail", "committer-time",
    "committer-tz", "summary", "previous", "boundary", "filename"]

/-- A further line about a revision: a key, and a value behind a blank if there is one. -/
structure OtherLine (s : String) : Prop where
  line : ∀ ch ∈ s.toList, ch ≠ '\n' ∧ ch ≠ '\r'
  key : ∃ key ∈ otherKeys, s = key ∨ ∃ value, s = key ++ " " ++ value

/-- Lines and revisions as there may be. -/
structure Blamable (c : Commits) (l : BlamedLine) : Prop where
  revision_length : l.revision.length = revisionLength
  revision_full : ∀ ch ∈ l.revision.toList, isBlank ch = false
  author_line : '\n' ∉ (c.author l.revision).toList
  others : ∀ s ∈ c.others l.revision, OtherLine s
  content_line : '\n' ∉ l.content.toList

/-- Neither the line nor its author has a line end of the other kind. -/
structure BlamedLine.Unbroken (c : Commits) (l : BlamedLine) : Prop where
  content : '\r' ∉ l.content.toList
  author : '\r' ∉ (c.author l.revision).toList

/-- The text has at least three words, and the first is as long as a revision. -/
def LooksLikeHeader (s : String) : Prop :=
  ∃ first second third rest, words s = first :: second :: third :: rest ∧
    first.length = revisionLength

/-- What the lines are reported as, where `author` has been read last. -/
def credited (c : Commits) :
    (known : List String) → (author : String) → List BlamedLine → List BlameLine
  | _, _, [] => []
  | known, author, l :: rest =>
    let author := if l.revision ∈ known then author else c.author l.revision
    ⟨l.final, cut 8 l.revision, author, l.content⟩ :: credited c (l.revision :: known) author rest

theorem words_cons_blank {b : Char} (hb : isBlank b) (cs : List Char) :
    words (String.ofList (b :: cs)) = words (String.ofList cs) := by
  simp [words, Text.splitBy, hb]

variable {s : String} {lines front : List BlamedLine}

theorem words_of_full (hne : s ≠ "") (hs : ∀ c ∈ s.toList, isBlank c = false) : words s = [s] := by
  have hpiece : s.toList ≠ [] := fun hnil => hne (String.toList_eq_nil_iff.1 hnil)
  rw [words, Text.splitBy_of_forall_not hs]
  simp [hne]

theorem words_append_blank (hne : s ≠ "") (hs : ∀ c ∈ s.toList, isBlank c = false) (rest : String) :
    words (s ++ " " ++ rest) = s :: words rest := by
  have hblank : isBlank ' ' := by decide
  have htext : (s ++ " " ++ rest).toList = s.toList ++ ' ' :: rest.toList := by simp
  rw [words, htext, Text.splitBy_append_cons hs hblank, words]
  simp [hne]

theorem words_join {pieces : List String} (hpieces : ∀ s ∈ pieces, s ≠ "" ∧ ∀ c ∈ s.toList,
    isBlank c = false) : words (join " " pieces) = pieces := by
  induction pieces with
  | nil => decide
  | cons s pieces ih =>
    obtain ⟨hne, hs⟩ := hpieces s mem_cons_self
    cases pieces with
    | nil => exact words_of_full hne hs
    | cons s' pieces =>
      rw [join, words_append_blank hne hs, ih fun u hu => hpieces u (mem_cons_of_mem s hu)]
      exact cons_ne_nil s' pieces

theorem isBlank_of_isDigit {c : Char} (hc : Json.isDigit c) : isBlank c = false := by
  obtain ⟨hlow, hhigh⟩ := Json.toNat_of_isDigit hc
  simp [isBlank, Text.inRanges]
  omega

theorem toList_digits (n : Nat) : (digits n).toList = Nat.toDigits 10 n := by
  rw [digits, String.toList_ofList]

theorem digits_full (n : Nat) : digits n ≠ "" ∧ ∀ c ∈ (digits n).toList, isBlank c = false := by
  refine ⟨fun hempty => ?_, fun c hc => ?_⟩
  · rw [← String.toList_eq_nil_iff, toList_digits] at hempty
    exact Nat.toDigits_ne_nil hempty
  · rw [toList_digits] at hc
    exact isBlank_of_isDigit (Json.isDigit_of_mem_toDigits hc)

theorem intOfText?_digits (n : Nat) : Json.intOfText? (digits n) = some (n : Int) := by
  obtain ⟨hne, hfull⟩ := digits_full n
  have hlist := toList_digits n
  have hdigit : ∀ c ∈ (digits n).toList, Json.isDigit c := by
    rw [hlist]
    exact fun c => Json.isDigit_of_mem_toDigits
  have htrim : trim (digits n) = digits n := by
    have hends :=
      Text.trimList_of_ends (p := isBlank) (fun hnil => hne (String.toList_eq_nil_iff.1 hnil))
      (fun c hc => hfull c (mem_of_mem_head? hc)) (fun c hc => hfull c (mem_of_getLast? hc))
      (forall_mem_nil _)
    rw [append_nil] at hends
    rw [trim, Text.trimBy, hends, String.ofList_toList]
  have hsign : Json.splitSign (digits n).toList = (false, (digits n).toList) := by
    rw [Json.splitSign.eq_def]
    split
    · next hcs => exact absurd (hdigit '-' (hcs ▸ mem_cons_self)) (by decide)
    · next hcs => exact absurd (hdigit '+' (hcs ▸ mem_cons_self)) (by decide)
    · rfl
  have hgroup : Text.splitBy (· == '_') (digits n).toList = [(digits n).toList] := by
    refine Text.splitBy_of_forall_not fun c hc => ?_
    rw [beq_eq_false_iff_ne]
    rintro rfl
    exact absurd (hdigit '_' hc) (by decide)
  have hvalue : Json.digitsValue (digits n).toList = n := by rw [hlist, Json.digitsValue_toDigits]
  simp only [Json.intOfText?, htrim, hsign, Json.groupedDigits?, hgroup]
  simp [hne, hvalue, all_eq_true.2 hdigit]

/-! ## Single lines

What each kind of line does to what has been read. -/

variable {c : Commits} {l : BlamedLine} (r : BlameReading)

theorem header_parts (h : Blamable c l) :
    ∀ s ∈ [l.revision, digits l.original, digits l.final] ++ (l.count.map digits).toList,
      s ≠ "" ∧ ∀ ch ∈ s.toList, isBlank ch = false := by
  intro s hs
  have hrevision : l.revision ≠ "" := by
    intro hempty
    have hlength := h.revision_length
    rw [hempty] at hlength
    exact absurd hlength (by decide)
  simp only [cons_append, nil_append, mem_cons, Option.mem_toList,
    Option.map_eq_some_iff] at hs
  rcases hs with rfl | rfl | rfl | ⟨n, -, rfl⟩
  · exact ⟨hrevision, h.revision_full⟩
  all_goals exact digits_full _

theorem words_header (h : Blamable c l) :
    words l.header =
      [l.revision, digits l.original, digits l.final] ++ (l.count.map digits).toList :=
  words_join (header_parts h)

/-- A header says which revision and which line come next. -/
theorem step_header (h : Blamable c l) :
    r.step l.header = .ok { r with revision := l.revision, number := l.final } := by
  have hheader : blameHeader? l.header = some (l.revision, digits l.final) := by
    simp [blameHeader?, words_header h, h.revision_length]
  rw [step, hheader]
  simp only [intOfText?_digits]

theorem blameHeader?_of_words {first : String} {rest : List String}
    (hwords : words s = first :: rest)
    (hlength : first.length ≠ revisionLength) : blameHeader? s = none := by
  rw [blameHeader?, hwords]
  split
  · next hcons =>
    obtain rfl := (List.cons.inj hcons).1
    simp [hlength]
  · rfl

/-- From here on this author is in force. -/
theorem step_author (author : String) :
    r.step ("author " ++ author) = .ok { r with author := author } := by
  have hwords : words ("author " ++ author) = "author" :: words author :=
    words_append_blank (s := "author") (by decide) (full_of_all (by decide)) author
  have hstart : startsWith ("author " ++ author) "author " := by simp [startsWith]
  have hskip : skip 7 ("author " ++ author) = author := by
    have hdrop : ("author ".toList ++ author.toList).drop 7 = author.toList := rfl
    rw [skip, String.toList_append, hdrop, String.ofList_toList]
  rw [step, blameHeader?_of_words hwords (by decide)]
  simp only [hstart, hskip, if_true]

theorem otherKeys_apart : ∀ key ∈ otherKeys, key ≠ "" ∧ key.length ≠ revisionLength ∧
    key.toList.all (fun c => !isBlank c) ∧
      ∀ start ∈ ["author ", "\t"], start.toList.length ≤ key.toList.length ∧ ¬ start.toList <+:
        key.toList := by
  decide

theorem step_other (hs : OtherLine s) : r.step s = .ok r := by
  obtain ⟨key, hkey, hs⟩ := hs.key
  obtain ⟨hne, hlength, hall, hstart⟩ := otherKeys_apart key hkey
  have hfull := full_of_all hall
  have hsplit : ∃ more rest, words s = key :: more ∧ s.toList = key.toList ++ rest := by
    rcases hs with rfl | ⟨value, rfl⟩
    · exact ⟨[], [], words_of_full hne hfull, (append_nil _).symm⟩
    · exact ⟨_, _, words_append_blank hne hfull value, by rw [String.append_assoc,
        String.toList_append]⟩
  obtain ⟨more, rest, hwords, htext⟩ := hsplit
  -- the key is as long as either start at least, so what the line starts with the key would start
  -- with
  have hno (start : String) (hmem : start ∈ ["author ", "\t"]) : startsWith s start = false := by
    obtain ⟨hshort, hnot⟩ := hstart start hmem
    refine Bool.eq_false_iff.2 fun hprefix => hnot ?_
    rw [startsWith, isPrefixOf_iff_prefix, htext] at hprefix
    exact prefix_of_prefix_length_le hprefix (prefix_append _ _) hshort
  rw [step, blameHeader?_of_words hwords hlength]
  simp [hno]

theorem words_content (s : String) : words ("\t" ++ s) = words s := by
  have htext : "\t" ++ s = String.ofList ('\t' :: s.toList) := by
    rw [← String.toList_inj]
    simp
  rw [htext, words_cons_blank (by decide), String.ofList_toList]

theorem blameHeader?_eq_none_iff : blameHeader? s = none ↔ ¬ LooksLikeHeader s := by
  rw [blameHeader?, LooksLikeHeader]
  split
  · next first second third rest hwords => simp [hwords]
  · next hwords =>
      simpa using fun first second third rest h => absurd h (hwords first second third rest)

/-- A line is reported with the revision and the author in force. -/
theorem step_content (hs : ¬ LooksLikeHeader s) :
    r.step ("\t" ++ s) =
      .ok { r with lines := r.lines ++ [⟨r.number, cut 8 r.revision, r.author, s⟩] } := by
  have hheader : blameHeader? ("\t" ++ s) = none := by
    rw [blameHeader?, words_content, ← blameHeader?, blameHeader?_eq_none_iff]
    exact hs
  have hauthor : startsWith ("\t" ++ s) "author " = false := by
    simp [startsWith, List.isPrefixOf]
  have hstart : startsWith ("\t" ++ s) "\t" := by simp [startsWith]
  have hskip : skip 1 ("\t" ++ s) = s := by
    have hdrop : ("\t".toList ++ s.toList).drop 1 = s.toList := rfl
    rw [skip, String.toList_append, hdrop, String.ofList_toList]
  rw [step, hheader]
  simp only [hauthor, hstart, hskip, if_true, Bool.false_eq_true, if_false]
  rfl

theorem lines_of_step_header (hs : LooksLikeHeader s) {r' : BlameReading}
    (hstep : r.step ("\t" ++ s) = .ok r') : r'.lines = r.lines := by
  have hheader : blameHeader? ("\t" ++ s) ≠ none := by
    rw [blameHeader?, words_content, ← blameHeader?, Ne, blameHeader?_eq_none_iff, not_not]
    exact hs
  obtain ⟨⟨revision, number⟩, hsome⟩ := Option.ne_none_iff_exists'.1 hheader
  rw [step, hsome] at hstep
  cases hnumber : Json.intOfText? number with
  | none => simp [hnumber] at hstep
  | some n =>
    simp only [hnumber, Except.ok.injEq] at hstep
    rw [← hstep]

/-! ## Groups

Line after line, with the author in force as what is carried along. -/

def authorAfter (c : Commits) (known : List String) (author : String) (l : BlamedLine) : String :=
  if l.revision ∈ known then author else c.author l.revision

theorem foldlM_others {ls : List String} (hls : ∀ s ∈ ls, OtherLine s) :
    ls.foldlM step r = .ok r := by
  induction ls with
  | nil => rfl
  | cons s ls ih =>
    rw [foldlM_cons, step_other r (hls s mem_cons_self)]
    exact ih fun t ht => hls t (mem_cons_of_mem s ht)

theorem foldlM_block (h : Blamable c l) (known : List String) :
    (if l.revision ∈ known then [] else ("author " ++ c.author l.revision) ::
      c.others l.revision).foldlM
      step r = .ok { r with author := authorAfter c known r.author l } := by
  rw [authorAfter]
  split
  · rfl
  · rw [foldlM_cons, step_author]
    exact foldlM_others _ h.others

def BlameReading.introduced (r : BlameReading) (c : Commits) (known : List String)
    (l : BlamedLine) : BlameReading :=
  { r with revision := l.revision, number := l.final, author := authorAfter c known r.author l }

/-- The lines that are written for one line credit it to the author read last. -/
theorem foldlM_group (h : Blamable c l) (known : List String) :
    (l.group c known).foldlM step r = (r.introduced c known l).step ("\t" ++ l.content) := by
  rw [BlamedLine.group, foldlM_cons, step_header r h]
  show List.foldlM _ _ _ = _
  rw [foldlM_append, foldlM_block _ h]
  show (step _ _ >>= fun r' => pure r') = _
  rw [bind_pure]
  rfl

/-- **Every line is credited to the author read last**, if no line looks like a header. -/
theorem foldlM_groups (h : ∀ l ∈ lines, Blamable c l) (hlooks : ∀ l ∈ lines,
    ¬ LooksLikeHeader l.content) (known : List String) :
    ∃ r', (groups c known lines).foldlM step r = .ok r' ∧
      r'.lines = r.lines ++ credited c known r.author lines := by
  -- the author is left over from one group to the next, so the induction is over all readings
  induction lines generalizing r known with
  | nil => exact ⟨r, rfl, (append_nil _).symm⟩
  | cons l lines ih =>
    have hstep := (foldlM_group r (h l mem_cons_self) known).trans
      (step_content _ (hlooks l mem_cons_self))
    obtain ⟨r', hrun, hlines⟩ := ih _ (fun l' hl' => h l' (mem_cons_of_mem l hl'))
      (fun l' hl' => hlooks l' (mem_cons_of_mem l hl')) (l.revision :: known)
    refine ⟨r', ?_, ?_⟩
    · rw [groups, foldlM_append, hstep]
      exact hrun
    · rw [hlines, append_assoc]
      rfl

/-- Only lines that do not look like a header are reported. -/
theorem length_of_foldlM (h : ∀ l ∈ lines, Blamable c l) (known : List String) {r' : BlameReading}
    (hrun : (groups c known lines).foldlM step r = .ok r') :
    r'.lines.length = r.lines.length + lines.countP fun l => (blameHeader? l.content).isNone := by
  induction lines generalizing r known with
  | nil =>
    obtain rfl := Except.ok.inj hrun
    rfl
  | cons l lines ih =>
    rw [groups, foldlM_append, foldlM_group r (h l mem_cons_self)] at hrun
    cases hstep : (r.introduced c known l).step ("\t" ++ l.content) with
    | error f =>
      rw [hstep] at hrun
      cases hrun
    | ok r₁ =>
      rw [hstep] at hrun
      have hrest : (groups c (l.revision :: known) lines).foldlM step r₁ = .ok r' := hrun
      have hlength := ih r₁ (fun l' hl' => h l' (mem_cons_of_mem l hl')) (l.revision :: known) hrest
      rw [hlength, countP_cons]
      by_cases hlooks : LooksLikeHeader l.content
      · -- the content was taken for the header of another line
        have hsame : r₁.lines = r.lines :=
          lines_of_step_header (r.introduced c known l) hlooks hstep
        have hheader : (blameHeader? l.content).isNone = false := by
          rw [Bool.eq_false_iff, Ne, Option.isNone_iff_eq_none, blameHeader?_eq_none_iff, not_not]
          exact hlooks
        simp [hsame, hheader]
      · rw [step_content _ hlooks] at hstep
        obtain rfl := Except.ok.inj hstep
        simp [blameHeader?_eq_none_iff.2 hlooks, BlameReading.introduced]
        omega

/-! ## Texts

Nothing is lost when the text is cut into lines again. -/

theorem header_line (h : Blamable c l) :
    l.header ≠ "" ∧ ∀ ch ∈ l.header.toList, ch ≠ '\n' ∧ ch ≠ '\r' := by
  refine ⟨fun hempty => ?_, fun ch hmem => ?_⟩
  · have hwords := words_header h
    rw [hempty] at hwords
    cases hwords
  · rcases Text.mem_join hmem with hblank | ⟨s, hs, hmem⟩
    · rw [mem_singleton.1 hblank]
      decide
    · have hfull := (header_parts h s hs).2 ch hmem
      constructor <;> (rintro rfl; exact absurd hfull (by decide))

theorem mem_group_iff {known : List String} : s ∈ l.group c known ↔
    s = l.header ∨ l.revision ∉ known ∧ (s = "author " ++ c.author l.revision ∨
      s ∈ c.others l.revision) ∨ s = "\t" ++ l.content := by
  rw [BlamedLine.group, mem_cons, mem_append, mem_singleton]
  by_cases hknown : l.revision ∈ known
  · simp [hknown]
  · simp [hknown]

theorem group_line (h : Blamable c l) (known : List String) :
    ∀ s ∈ l.group c known, s ≠ "" ∧ '\n' ∉ s.toList := by
  intro s hs
  rcases mem_group_iff.1 hs with rfl | ⟨-, rfl | hs⟩ | rfl
  · exact ⟨(header_line h).1, fun hmem => ((header_line h).2 _ hmem).1 rfl⟩
  · simp [h.author_line]
  · have hother := h.others s hs
    refine ⟨?_, fun hmem => (hother.line _ hmem).1 rfl⟩
    rintro rfl
    obtain ⟨key, hkey, hempty | ⟨value, hvalue⟩⟩ := hother.key
    · exact (otherKeys_apart key hkey).1 hempty.symm
    · simp at hvalue
  · simp [h.content_line]

theorem return_not_mem_group (h : Blamable c l) (hunbroken : l.Unbroken c) (known : List String) :
    ∀ s ∈ l.group c known, '\r' ∉ s.toList := by
  intro s hs
  rcases mem_group_iff.1 hs with rfl | ⟨-, rfl | hs⟩ | rfl
  · exact fun hmem => ((header_line h).2 _ hmem).2 rfl
  · simp [hunbroken.author]
  · exact fun hmem => ((h.others s hs).line _ hmem).2 rfl
  · simp [hunbroken.content]

/-- What holds of the groups of all lines holds of every written line. -/
theorem forall_mem_groups {P : String → Prop} (h : ∀ l ∈ lines, ∀ known, ∀ s ∈ l.group c known, P s)
    (known : List String) : ∀ s ∈ groups c known lines, P s := by
  induction lines generalizing known with
  | nil => simp [groups]
  | cons l lines ih =>
    intro s hs
    rcases mem_append.1 hs with hs | hs
    · exact h l mem_cons_self known s hs
    · exact ih (fun l' hl' => h l' (mem_cons_of_mem l hl')) _ s hs

theorem return_not_mem_blameText (h : ∀ l ∈ lines, Blamable c l)
    (hunbroken : ∀ l ∈ lines, l.Unbroken c) : '\r' ∉ (blameText c lines).toList := by
  have hlines := forall_mem_groups (fun l hl => return_not_mem_group (h l hl) (hunbroken l hl)) []
  rw [blameText, String.toList_join, flatMap_map, mem_flatMap]
  rintro ⟨s, hs, hmem⟩
  exact hlines s hs (by simpa using hmem)

theorem filter_splitChar_blameText (h : ∀ l ∈ lines, Blamable c l) :
    (splitChar '\n' (blameText c lines)).filter (fun l => !l.isEmpty) = groups c [] lines := by
  have hlines := forall_mem_groups (fun l hl => group_line (h l hl)) []
  have htext : (blameText c lines).toList = ((groups c [] lines).map String.toList).flatMap
      (· ++ ['\n']) := by
    simp [blameText, String.toList_join, flatMap_map]
  have hfree : ∀ l ∈ (groups c [] lines).map String.toList, ∀ ch ∈ l, (ch == '\n') = false := by
    intro l hl ch hch
    obtain ⟨s, hs, rfl⟩ := mem_map.1 hl
    rw [beq_eq_false_iff_ne]
    rintro rfl
    exact (hlines s hs).2 hch
  have hsplit : splitChar '\n' (blameText c lines) = groups c [] lines ++ [""] := by
    rw [splitChar, htext, Text.splitBy_lines (p := (· == '\n')) (beq_self_eq_true '\n') hfree,
      map_append, map_map]
    simp [Function.comp_def]
  have hfull : (groups c [] lines).filter (fun l => !l.isEmpty) = groups c [] lines := by
    rw [filter_eq_self]
    intro s hs
    simpa using (hlines s hs).1
  rw [hsplit, filter_append, hfull]
  simp

/-! ## Right credits

An author stays in force until another revision is introduced. -/

def newest (lines : List BlamedLine) : Option String :=
  (distinct (lines.map (·.revision))).getLast?

theorem newest_concat (front : List BlamedLine) (l : BlamedLine) :
    newest (front ++ [l]) = if l.revision ∈ front.map (·.revision) then newest front
      else some l.revision := by
  rw [newest, newest, map_append, map_singleton, distinct_concat]
  split
  · rfl
  · rw [getLast?_concat]

theorem exists_newest (hne : front ≠ []) : ∃ r, newest front = some r := by
  induction front using List.reverseRecOn with
  | nil => exact absurd rfl hne
  | append_singleton front l ih =>
    rw [newest_concat]
    split
    · next hmem => exact ih (by rintro rfl; cases hmem)
    · exact ⟨_, rfl⟩

/-- Each line has the author of the revision that was introduced last when it comes. -/
def RightlyCredited (c : Commits) (front lines : List BlamedLine) : Prop :=
  ∀ mid l back, lines = mid ++ l :: back → ∀ r ∈ newest (front ++ mid ++ [l]),
    c.author r = c.author l.revision

theorem rightlyCredited_cons : RightlyCredited c front (l :: lines) ↔
    (∀ r ∈ newest (front ++ [l]), c.author r = c.author l.revision) ∧ RightlyCredited c
      (front ++ [l]) lines := by
  constructor
  · intro h
    refine ⟨?_, fun mid l' back hlines => ?_⟩
    · have hfirst := h [] l lines rfl
      rwa [append_nil] at hfirst
    · have hlater := h (l :: mid) l' back (by rw [hlines, cons_append])
      rwa [← singleton_append (l := mid), ← append_assoc] at hlater
  · rintro ⟨hfirst, hlater⟩ mid l' back hlines
    cases mid with
    | nil =>
      obtain ⟨rfl, rfl⟩ := List.cons.inj hlines
      rwa [append_nil]
    | cons m mid =>
      obtain ⟨rfl, rfl⟩ := List.cons.inj hlines
      have hthere := hlater mid l' back rfl
      rwa [append_assoc front [l], singleton_append] at hthere

theorem credited_eq_iff {known : List String} {author : String}
    (hknown : ∀ rev, rev ∈ known ↔ rev ∈ front.map (·.revision))
    (hauthor : ∀ r ∈ newest front, author = c.author r) :
    credited c known author lines = lines.map (BlamedLine.own c) ↔
      RightlyCredited c front lines := by
  induction lines generalizing front known author with
  | nil => simp [credited, RightlyCredited]
  | cons l lines ih =>
    have hafter : ∀ r ∈ newest (front ++ [l]), authorAfter c known author l = c.author r := by
      intro r hr
      rw [newest_concat] at hr
      rw [authorAfter]
      by_cases hmem : l.revision ∈ front.map (·.revision)
      · rw [if_pos hmem] at hr
        rw [if_pos ((hknown _).2 hmem)]
        exact hauthor r hr
      · rw [if_neg hmem] at hr
        rw [if_neg (mt (hknown _).1 hmem), Option.mem_some_iff.1 hr]
    have hknown' (rev : String) :
        rev ∈ l.revision :: known ↔ rev ∈ (front ++ [l]).map (·.revision) := by
      rw [map_append, mem_append, mem_cons, hknown, or_comm]
      simp
    obtain ⟨r, hr⟩ := exists_newest (append_ne_nil_of_right_ne_nil front (cons_ne_nil l []))
    have hhead : (∀ r ∈ newest (front ++ [l]), c.author r = c.author l.revision) ↔
        authorAfter c known author l = c.author l.revision := by
      rw [hafter r hr, hr]
      simp
    rw [rightlyCredited_cons, hhead, ← ih hknown' hafter, credited, map_cons, List.cons.injEq,
      BlamedLine.own, BlameLine.mk.injEq]
    simp [authorAfter]

theorem blameText_not_blank (h : Blamable c l) :
    isBlankText (blameText c (l :: lines)) = false := by
  cases hrevision : l.revision.toList with
  | nil =>
    have hlength := h.revision_length
    rw [String.toList_eq_nil_iff.1 hrevision] at hlength
    exact absurd hlength (by decide)
  | cons ch rest =>
    have hch : ch ∈ l.revision.toList := hrevision ▸ mem_cons_self
    obtain ⟨after, hafter⟩ := Text.exists_toList_join_head " " l.revision
      ([digits l.original, digits l.final] ++ (l.count.map digits).toList)
    have hheader : ch ∈ l.header.toList := by
      rw [BlamedLine.header, cons_append, hafter]
      exact mem_append_left _ hch
    refine isBlankText_eq_false (c := ch) ?_ (h.revision_full ch hch)
    simp [blameText, groups, BlamedLine.group, String.toList_join, hheader]

/-! ## What is read comes from the text

Nothing that is read has a carriage return, so a line with one is not reported as it was written. -/

/-- Nothing that was read has a carriage return. -/
structure BlameReading.Unmarked (r : BlameReading) : Prop where
  author : '\r' ∉ r.author.toList
  lines : ∀ l ∈ r.lines, '\r' ∉ l.author.toList ∧ '\r' ∉ l.content.toList

/-- Authors and lines have their characters from the text that is read. -/
theorem BlameReading.Unmarked.step {r r' : BlameReading} (hr : r.Unmarked) (hs : '\r' ∉ s.toList)
    (hstep : r.step s = .ok r') : r'.Unmarked := by
  have hskip (n : Nat) : '\r' ∉ (skip n s).toList := by
    rw [skip, String.toList_ofList]
    exact fun hmem => hs (mem_of_mem_drop hmem)
  rw [BlameReading.step] at hstep
  split at hstep
  · split at hstep
    · obtain rfl := Except.ok.inj hstep
      exact ⟨hr.author, hr.lines⟩
    · cases hstep
  · split at hstep
    · obtain rfl := Except.ok.inj hstep
      exact ⟨hskip 7, hr.lines⟩
    · split at hstep
      · obtain rfl := Except.ok.inj hstep
        refine ⟨hr.author, fun l hl => ?_⟩
        rcases mem_append.1 hl with hl | hl
        · exact hr.lines l hl
        · rw [mem_singleton.1 hl]
          exact ⟨hr.author, hskip 1⟩
      · obtain rfl := Except.ok.inj hstep
        exact hr

theorem unmarked_of_foldlM {ls : List String} {r r' : BlameReading} (hr : r.Unmarked)
    (hls : ∀ s ∈ ls, '\r' ∉ s.toList) (hrun : ls.foldlM step r = .ok r') : r'.Unmarked := by
  induction ls generalizing r with
  | nil =>
    obtain rfl := Except.ok.inj hrun
    exact hr
  | cons s ls ih =>
    rw [foldlM_cons] at hrun
    obtain ⟨r₁, hstep, hrest⟩ := Extract.bind_eq_ok_iff.1 hrun
    exact ih (hr.step (hls s mem_cons_self) hstep) (fun t ht => hls t (mem_cons_of_mem s ht)) hrest

theorem return_not_mem_of_parseBlame {text : String} (htext : '\r' ∉ text.toList)
    {found : List BlameLine} (h : parseBlame text = .ok found) :
    ∀ l ∈ found, '\r' ∉ l.author.toList ∧ '\r' ∉ l.content.toList := by
  obtain ⟨r, hrun, hfound⟩ := Extract.bind_eq_ok_iff.1 h
  obtain rfl : r.lines = found := by simpa [pure, Except.pure] using hfound
  have hempty : BlameReading.Unmarked {} := ⟨by simp, by simp⟩
  exact (unmarked_of_foldlM hempty
    (fun s hs hmem => htext (Text.mem_of_mem_splitChar (mem_of_mem_filter hs) hmem)) hrun).lines

theorem run_blame {path : String} {s s' : Shell} {r : Reply}
    (hreply : s.reply ["git", "blame", "--porcelain", path] = (r, s')) (hcode : r.code = 0) :
    (blame .git path).run.run s =
      (if isBlankText (Text.unixLines r.output) then .ok []
        else parseBlame (Text.unixLines r.output), s') := by
  rw [blame, run_bind_ok (run_of_reply hreply hcode)]
  split
  · rfl
  · cases parseBlame (Text.unixLines r.output) with
    | error f => rfl
    | ok lines => rfl

theorem read_blameText (h : ∀ l ∈ lines, Blamable c l) :
    (if isBlankText (blameText c lines) then .ok [] else parseBlame (blameText c lines)) =
      ((groups c [] lines).foldlM step {}).map (·.lines) := by
  cases lines with
  | nil => rfl
  | cons l lines =>
    rw [if_neg (by simp [blameText_not_blank (h l mem_cons_self)]), parseBlame,
      filter_splitChar_blameText h]
    cases (groups c [] (l :: lines)).foldlM step {} with
    | error f => rfl
    | ok r' => rfl

theorem read_credited (h : ∀ l ∈ lines, Blamable c l) (hlooks : ∀ l ∈ lines,
    ¬ LooksLikeHeader l.content) :
    ((groups c [] lines).foldlM step {}).map (·.lines) = .ok (credited c [] "" lines) := by
  obtain ⟨r', hfold, hlines⟩ := foldlM_groups {} h hlooks []
  rw [hfold]
  exact congrArg Except.ok hlines

/-- As many lines as were written can only be reported if none of them was taken for a header. -/
theorem read_own_iff (h : ∀ l ∈ lines, Blamable c l) :
    ((groups c [] lines).foldlM step {}).map (·.lines) = .ok (lines.map (BlamedLine.own c)) ↔
      (∀ l ∈ lines, ¬ LooksLikeHeader l.content) ∧ RightlyCredited c [] lines := by
  have hright : credited c [] "" lines = lines.map (BlamedLine.own c) ↔
      RightlyCredited c [] lines :=
    credited_eq_iff (by simp) (by simp [newest, distinct])
  constructor
  · intro hown
    have hlooks : ∀ l ∈ lines, ¬ LooksLikeHeader l.content := by
      cases hfold : (groups c [] lines).foldlM step {} with
      | error f =>
        rw [hfold] at hown
        cases hown
      | ok r' =>
        rw [hfold] at hown
        have hlines : r'.lines = lines.map (BlamedLine.own c) := Except.ok.inj hown
        have hcount := length_of_foldlM {} h [] hfold
        rw [hlines, length_map, length_nil, Nat.zero_add, eq_comm, countP_eq_length] at hcount
        intro l hl
        rw [← blameHeader?_eq_none_iff, ← Option.isNone_iff_eq_none]
        exact hcount l hl
    refine ⟨hlooks, hright.1 ?_⟩
    rw [read_credited h hlooks] at hown
    exact Except.ok.inj hown
  · rintro ⟨hlooks, hauthors⟩
    rw [read_credited h hlooks, hright.2 hauthors]

/-- **A line is credited to the author of the revision that was introduced last**, if what the
command prints reads as these lines and none of them looks like a header. If the command prints just
these lines, all of them are reported with their contents and their own authors if and only if none
looks like a header, none has a carriage return in its content or its author, which would end a line
in what is read, and the author in force is always their own. -/
theorem blame_credits (path : String) {lines : List BlamedLine} (h : ∀ l ∈ lines, Blamable c l)
    {s s' : Shell} {r : Reply}
    (hreply : s.reply ["git", "blame", "--porcelain", path] = (r, s')) (hcode : r.code = 0) :
    (Text.unixLines r.output = blameText c lines → (∀ l ∈ lines, ¬ LooksLikeHeader l.content) →
      (blame .git path).run.run s = (.ok (credited c [] "" lines), s')) ∧
    (r.output = blameText c lines →
      ((blame .git path).run.run s = (.ok (lines.map (BlamedLine.own c)), s') ↔
        (∀ l ∈ lines, ¬ LooksLikeHeader l.content ∧ l.Unbroken c) ∧
          RightlyCredited c [] lines)) := by
  have hrun := run_blame hreply hcode
  refine ⟨fun hlines hlooks => ?_, fun houtput => ⟨fun hown => ?_, fun ⟨hall, hauthors⟩ => ?_⟩⟩
  · rw [hrun, hlines, read_blameText h, read_credited h hlooks]
  · -- the text that was read has no carriage return, so it is what the command printed
    rw [hrun] at hown
    have hown := (Prod.mk.inj hown).1
    have hunbroken : ∀ l ∈ lines, l.Unbroken c := by
      intro l hl
      have hmem : l.own c ∈ lines.map (BlamedLine.own c) := mem_map_of_mem hl
      split at hown
      · rw [← Except.ok.inj hown] at hmem
        cases hmem
      · obtain ⟨hauthor, hcontent⟩ :=
          return_not_mem_of_parseBlame (Text.return_not_mem_unixLines _) hown _ hmem
        exact ⟨hcontent, hauthor⟩
    rw [houtput, Text.unixLines_of_not_mem (return_not_mem_blameText h hunbroken), read_blameText h,
      read_own_iff h] at hown
    exact ⟨fun l hl => ⟨hown.1 l hl, hunbroken l hl⟩, hown.2⟩
  · rw [hrun, houtput,
      Text.unixLines_of_not_mem (return_not_mem_blameText h fun l hl => (hall l hl).2),
        read_blameText h]
    exact congrArg (·, s') ((read_own_iff h).2 ⟨fun l hl => (hall l hl).1, hauthors⟩)

def firstRevision : String := "aaaaaaaaaaaaaaaaaaaaaaaaaaaaaaaaaaaaaaaa"

def secondRevision : String := "bbbbbbbbbbbbbbbbbbbbbbbbbbbbbbbbbbbbbbbb"

def twoAuthors : Commits where
  author revision := if revision = firstRevision then "Ann" else "Bob"
  others _ := ["author-mail <dev@example>", "summary author of a line", "filename a.py"]

def interleaved : List BlamedLine :=
  [⟨firstRevision, 1, 1, some 1, "x = 1"⟩, ⟨secondRevision, 2, 2, some 1, "author y"⟩,
    ⟨firstRevision, 2, 3, some 1, ""⟩]

theorem blamable_interleaved : ∀ l ∈ interleaved, Blamable twoAuthors l := by
  have hothers : ∀ s ∈ ["author-mail <dev@example>", "summary author of a line", "filename a.py"],
      OtherLine s := by
    intro s hs
    simp only [mem_cons, not_mem_nil, or_false] at hs
    rcases hs with rfl | rfl | rfl
    · exact ⟨by simp, "author-mail", by decide, .inr ⟨"<dev@example>", by decide⟩⟩
    · exact ⟨by simp, "summary", by decide, .inr ⟨"author of a line", by decide⟩⟩
    · exact ⟨by simp, "filename", by decide, .inr ⟨"a.py", by decide⟩⟩
  intro l hl
  simp only [interleaved, mem_cons, not_mem_nil, or_false] at hl
  rcases hl with rfl | rfl | rfl <;>
    exact ⟨by decide, full_of_all (by decide), by decide, hothers, by decide⟩

theorem not_looksLikeHeader_interleaved : ∀ l ∈ interleaved, ¬ LooksLikeHeader l.content := by
  have hnone : (interleaved.all fun l => (blameHeader? l.content).isNone) := by decide
  intro l hl
  rw [← blameHeader?_eq_none_iff, ← Option.isNone_iff_eq_none]
  exact all_eq_true.1 hnone l hl

theorem unbroken_interleaved : ∀ l ∈ interleaved, l.Unbroken twoAuthors := by
  intro l hl
  simp only [interleaved, mem_cons, not_mem_nil, or_false] at hl
  rcases hl with rfl | rfl | rfl <;> exact ⟨by decide, by decide⟩

def interleavedShell : Shell :=
  { replies := .ofList [("git blame", [⟨blameText twoAuthors interleaved, 0, ""⟩])] }

/-- The third line is the first author's, and is credited to the second. -/
theorem blame_credits_interleaved :
    (blame .git "a.py").run.run interleavedShell =
        (.ok [⟨1, "aaaaaaaa", "Ann", "x = 1"⟩, ⟨2, "bbbbbbbb", "Bob", "author y"⟩,
          ⟨3, "aaaaaaaa", "Bob", ""⟩],
          { interleavedShell with ran := [["git", "blame", "--porcelain", "a.py"]] }) ∧
      ¬ RightlyCredited twoAuthors [] interleaved := by
  obtain ⟨hcredited, hiff⟩ :=
    blame_credits "a.py" blamable_interleaved (s := interleavedShell) rfl rfl
  have hcredits : credited twoAuthors [] "" interleaved =
      [⟨1, "aaaaaaaa", "Ann", "x = 1"⟩, ⟨2, "bbbbbbbb", "Bob", "author y"⟩,
        ⟨3, "aaaaaaaa", "Bob", ""⟩] := by
    decide
  have hlines :=
    Text.unixLines_of_not_mem (return_not_mem_blameText blamable_interleaved unbroken_interleaved)
  have hrun := hcredited hlines not_looksLikeHeader_interleaved
  rw [hcredits] at hrun
  refine ⟨hrun, fun hright => ?_⟩
  have hown := (hiff rfl).2
    ⟨fun l hl => ⟨not_looksLikeHeader_interleaved l hl, unbroken_interleaved l hl⟩, hright⟩
  have hlines := Except.ok.inj (Prod.mk.inj (hrun.symm.trans hown)).1
  exact absurd hlines (by decide)

end CodeAtlas.History
