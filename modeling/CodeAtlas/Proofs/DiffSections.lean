import Mathlib.Data.List.ModifyLast
import CodeAtlas.Change.Diff
import CodeAtlas.Proofs.Cutting
import CodeAtlas.Proofs.Moments

/-!
# Diffs, section by section

A diff is written section by section, each for a file that was modified, added or deleted.

* **`step_added`**, **`step_removed`**, **`step_hunk`** and the lemmas beside them — what each kind
  of line does to what has been read.
-/

namespace CodeAtlas.Change

open List
open Text (isBlank isLineEnd skip startsWith)
open DiffReading (openSection step)
open String (ofList ofList_toList toList_append toList_ofList)

/-! ## Written diffs

What a diff may be and how it is written, line by line. -/

inductive LineMark where
  | kept
  | added
  | removed
deriving DecidableEq

def LineMark.sign : LineMark → String
  | .kept => " "
  | .added => "+"
  | .removed => "-"

structure Hunk where
  /-- Where the lines are on the two sides, such as `1,2 +3`; a count of one may be left out. -/
  places : String
  context : String
  lines : List (LineMark × String)

structure DiffSection where
  path : String
  status : FileStatus
  mode : String
  index : Option String
  hunks : List Hunk

namespace Hunk

def header (h : Hunk) : String :=
  "@@ -" ++ h.places ++ " @@" ++ if h.context.isEmpty then "" else " " ++ h.context

def text (h : Hunk) : List String :=
  h.header :: h.lines.map fun l => l.1.sign ++ l.2

def named (h : Hunk) : List String :=
  hunkNames h.header ++ (h.lines.filter (·.1 ≠ .kept)).filterMap fun l => definedName? l.2

end Hunk

namespace DiffSection

def modeLine (s : DiffSection) : List String :=
  match s.status with
  | .modified => []
  | .added => ["new file mode " ++ s.mode]
  | .deleted => ["deleted file mode " ++ s.mode]

def oldSide (s : DiffSection) : String :=
  if s.status = .added then "--- /dev/null" else "--- a/" ++ s.path

def newSide (s : DiffSection) : String :=
  if s.status = .deleted then "+++ /dev/null" else "+++ b/" ++ s.path

def text (s : DiffSection) : List String :=
  ("diff --git a/" ++ s.path ++ " b/" ++ s.path) :: (s.modeLine ++
    (s.index.map ("index " ++ ·)).toList ++ [s.oldSide, s.newSide] ++ s.hunks.flatMap Hunk.text)

def named (s : DiffSection) : List String :=
  s.hunks.flatMap Hunk.named

end DiffSection

def diffText (sections : List DiffSection) : String :=
  String.join ((sections.flatMap DiffSection.text).map (· ++ "\n"))

def OneLine (s : String) : Prop :=
  ∀ c ∈ s.toList, isLineEnd c = false

/-- An added line that starts like the header of a file. -/
def LooksLikeSide (text : String) : Prop :=
  (∃ path, path ≠ "" ∧ text = "++ b/" ++ path) ∨ ∃ rest, text = "++ /dev/null" ++ rest

def Noisy (l : LineMark × String) : Prop :=
  l.1 = .added ∧ LooksLikeSide l.2

/-- A section as it may be written. -/
structure DiffSection.Plain (s : DiffSection) : Prop where
  path_ne : s.path ≠ ""
  path : OneLine s.path
  mode : OneLine s.mode
  index : ∀ i ∈ s.index, OneLine i
  places : ∀ h ∈ s.hunks, OneLine h.places
  context : ∀ h ∈ s.hunks, OneLine h.context
  lines : ∀ h ∈ s.hunks, ∀ l ∈ h.lines, OneLine l.2

/-- No line of the section is taken for a header. -/
def DiffSection.Quiet (s : DiffSection) : Prop :=
  ∀ h ∈ s.hunks, ∀ l ∈ h.lines, ¬ Noisy l

def StartsApart (c : Char) (word : String) : Prop :=
  word.toList.head?.all (· != c) = true ∧ word ≠ ""

instance (c : Char) (word : String) : Decidable (StartsApart c word) :=
  inferInstanceAs (Decidable (_ ∧ _))

section Sign

variable {c : Char} {word : String} {words : List String} (cs : List Char)

theorem keyword?_of_apart (h : StartsApart c word) : keyword? word (c :: cs) = none := by
  obtain ⟨hhead, hne⟩ := h
  cases hword : word.toList with
  | nil => exact absurd (String.toList_eq_nil_iff.1 hword) hne
  | cons d ds =>
    have hd : d ≠ c := by simpa [hword] using hhead
    rw [keyword?, exactly?, hword, if_neg (by simp [List.isPrefixOf, hd])]
    rfl

theorem optionally_of_apart (h : StartsApart c word) : optionally word (c :: cs) = c :: cs := by
  rw [optionally, keyword?_of_apart cs h, Option.getD_none]

theorem anyKeyword?_of_apart (h : ∀ w ∈ words, StartsApart c w) :
    anyKeyword? words (c :: cs) = none := by
  rw [anyKeyword?, findSome?_eq_none_iff]
  exact fun w hw => keyword?_of_apart cs (h w hw)

theorem keywordRests_of_apart (h : ∀ w ∈ words, StartsApart c w) (steps : Nat) :
    keywordRests words steps (c :: cs) = [] := by
  cases steps with
  | zero => rfl
  | succ n => rw [keywordRests, anyKeyword?_of_apart cs h]

theorem definedName?_sign (hc : c = '+' ∨ c = '-') : definedName? (ofList (c :: cs)) = none := by
  have hblank : isBlank c = false := by rcases hc with rfl | rfl <;> decide
  have hwords : ∀ w ∈ ["def", "async", "function", "export", "func", "class", "abstract"],
      StartsApart c w := by
    rcases hc with rfl | rfl <;> decide
  have hmodifiers :
      ∀ w ∈ ["public", "private", "protected", "static", "abstract", "final"], StartsApart c w := by
    rcases hc with rfl | rfl <;> decide
  have hassigned : ∀ w ∈ ["const", "let", "var"], StartsApart c w := by
    rcases hc with rfl | rfl <;> decide
  have hmethod : ∀ w ∈ ["public", "private", "protected", "override", "static", "abstract", "async",
      "readonly"], StartsApart c w := by
    rcases hc with rfl | rfl <;> decide
  have hkeyword (w : String) (hw : w ∈ ["def", "async", "function", "export", "func", "class",
      "abstract"]) :
      keyword? w (c :: cs) = none ∧ optionally w (c :: cs) = c :: cs :=
    ⟨keyword?_of_apart cs (hwords w hw), optionally_of_apart cs (hwords w hw)⟩
  rw [definedName?, toList_ofList, dropWhile_cons_of_neg (by simp [hblank])]
  simp [defName?, modifiedFunctionName?, exportedFunctionName?, assignedFunctionName?, funcName?,
    className?,
    modifiedMethodName?, afterKeywords, hkeyword, keywordRests_of_apart cs hmodifiers,
      keywordRests_of_apart cs hmethod,
    anyKeyword?_of_apart cs hassigned]

end Sign

/-! ## Single lines

What each kind of written line does to what has been read. -/

variable (r : DiffReading)

def FileChange.addSymbols (f : FileChange) (names : List String) : FileChange :=
  names.foldl FileChange.addSymbol f

theorem step_section (path : String) :
    r.step ("diff --git a/" ++ path ++ " b/" ++ path) = { r with oldSideEmpty := false } := by
  simp [step, startsWith, List.isPrefixOf]

theorem step_deletedMode (mode : String) :
    r.step ("deleted file mode " ++ mode) = r.onCurrent fun f => { f with status := .deleted } := by
  simp [step, startsWith, List.isPrefixOf]

theorem step_addedMode (mode : String) :
    r.step ("new file mode " ++ mode) = r.onCurrent fun f => { f with status := .added } := by
  simp [step, startsWith, List.isPrefixOf]

theorem step_index (i : String) : r.step ("index " ++ i) = r := by
  simp [step, startsWith, List.isPrefixOf]

theorem step_oldPath (path : String) :
    r.step ("--- a/" ++ path) = { r with oldSideEmpty := false } := by
  simp [step, startsWith, List.isPrefixOf]

theorem step_oldEmpty : r.step "--- /dev/null" = { r with oldSideEmpty := true } := by
  simp [step, startsWith, List.isPrefixOf]

theorem step_newEmpty (rest : String) : r.step ("+++ /dev/null" ++ rest) =
    { r with current := r.current.map fun s => { s with emptySides := s.emptySides + 1 } } := by
  simp [step, startsWith, List.isPrefixOf]

theorem newSidePath?_append {path : String} (hpath : path ≠ "") :
    newSidePath? ("+++ b/" ++ path) = some path := by
  cases hchars : path.toList with
  | nil => exact absurd (String.toList_eq_nil_iff.1 hchars) hpath
  | cons c cs =>
    have hrest : exactly? "+++ b/" ("+++ b/" ++ path).toList = some (c :: cs) := by
      simp [exactly?, List.isPrefixOf, hchars]
      rfl
    rw [newSidePath?, hrest]
    show some (ofList (c :: cs)) = _
    rw [← hchars, ofList_toList]

theorem step_newPath {path : String} (hpath : path ≠ "") :
    r.step ("+++ b/" ++ path) = r.openSection path := by
  have hside := newSidePath?_append hpath
  simp [step, startsWith, List.isPrefixOf, hside]

theorem step_hunk (h : Hunk) :
    r.step h.header = r.onCurrent (·.addSymbols (hunkNames h.header)) := by
  obtain ⟨rest, hrest⟩ : ∃ rest, h.header = "@@ -" ++ rest :=
    ⟨_, by simp only [Hunk.header, String.append_assoc]; rfl⟩
  rw [hrest]
  simp [step, startsWith, List.isPrefixOf, FileChange.addSymbols]

theorem step_kept (text : String) : r.step (" " ++ text) = r := by
  simp [step, startsWith, List.isPrefixOf]

theorem DiffReading.onCurrent_addSymbols_nil : r.onCurrent (·.addSymbols []) = r := by
  obtain ⟨closed, current, old⟩ := r
  cases current <;> rfl

variable {text : String} {h : Hunk} {s : DiffSection} {sections : List DiffSection}

theorem definedName?_of_prefix {c : Char} {cs : List Char} (hc : c = '+' ∨ c = '-')
    (h : c :: cs <+: text.toList) : definedName? text = none := by
  obtain ⟨rest, hrest⟩ := h
  rw [← ofList_toList (s := text), ← hrest]
  exact definedName?_sign _ hc

theorem skip_sign (mark text : String) (hmark : mark.toList.length = 1) :
    skip 1 (mark ++ text) = text := by
  rw [skip, toList_append, ← hmark, drop_left, ofList_toList]

theorem onCurrent_definedName? (text : String) :
    (match definedName? text with
      | some name => r.onCurrent fun f => f.addSymbol name
      | none => r) = r.onCurrent (·.addSymbols (definedName? text).toList) := by
  cases definedName? text with
  | none => exact r.onCurrent_addSymbols_nil.symm
  | some name => rfl

theorem newSidePath?_sign (hquiet : ¬ LooksLikeSide text) : newSidePath? ("+" ++ text) = none := by
  rw [newSidePath?]
  split
  · next c rest hsome =>
    refine absurd (.inl ⟨ofList (c :: rest), by simp, ?_⟩) hquiet
    rw [exactly?] at hsome
    split at hsome
    · next hprefix =>
      obtain ⟨after, hafter⟩ := isPrefixOf_iff_prefix.1 hprefix
      rw [← hafter] at hsome
      have hrest : after = c :: rest := Option.some.inj hsome
      have hmark : "+++ b/".toList = '+' :: "++ b/".toList := by decide
      have hsign : "+".toList = ['+'] := by decide
      rw [toList_append, hmark, hsign, cons_append, singleton_append] at hafter
      have hpath : (ofList (c :: rest)).toList = after := toList_ofList.trans hrest.symm
      rw [← String.toList_inj, toList_append, hpath]
      exact (List.cons.inj hafter).2.symm
    · cases hsome
  · rfl

theorem step_added (hquiet : ¬ LooksLikeSide text) :
    r.step ("+" ++ text) = r.onCurrent (·.addSymbols (definedName? text).toList) := by
  have hskip : skip 1 ("+" ++ text) = text := skip_sign "+" text (by decide)
  have hempty : ¬ "++ /dev/null".toList <+: text.toList := by
    rintro ⟨rest, hrest⟩
    have hlist : (ofList rest).toList = rest := toList_ofList
    refine hquiet (.inr ⟨ofList rest, ?_⟩)
    rw [← String.toList_inj, toList_append, hlist, hrest]
  by_cases hsigns : "++".toList <+: text.toList
  · have hnone : definedName? text = none := definedName?_of_prefix (.inl rfl) hsigns
    simp [step, startsWith, List.isPrefixOf, newSidePath?_sign hquiet, hnone,
      DiffReading.onCurrent_addSymbols_nil] at hempty hsigns ⊢
    simp [hempty, hsigns]
  · have hheader : ¬ "++ ".toList <+: text.toList :=
      fun h => hsigns (List.IsPrefix.trans (by decide) h)
    simp [step, startsWith, List.isPrefixOf, hskip] at hsigns hheader ⊢
    rw [if_neg hheader, if_pos (by simpa [← Bool.not_eq_true] using hsigns)]
    exact onCurrent_definedName? r text

/-- A removed line names what it defines. It may be taken for the header of the old side, which does
not matter before the next header. -/
theorem step_removed (text : String) :
    ∃ b, r.step ("-" ++ text) =
      { r.onCurrent (·.addSymbols (definedName? text).toList) with oldSideEmpty := b } := by
  have hskip : skip 1 ("-" ++ text) = text := skip_sign "-" text (by decide)
  by_cases hsigns : "--".toList <+: text.toList
  · have hnone : definedName? text = none := definedName?_of_prefix (.inr rfl) hsigns
    rw [hnone, Option.toList_none, DiffReading.onCurrent_addSymbols_nil]
    by_cases hheader : "-- ".toList <+: text.toList
    · refine ⟨startsWith text "-- /dev/null", ?_⟩
      simp [step, startsWith, List.isPrefixOf] at hheader ⊢
      simp [hheader]
    · refine ⟨r.oldSideEmpty, ?_⟩
      simp [step, startsWith, List.isPrefixOf] at hsigns hheader ⊢
      simp [hheader, hsigns]
  · refine ⟨r.oldSideEmpty, ?_⟩
    have hheader : ¬ "-- ".toList <+: text.toList :=
      fun h => hsigns (List.IsPrefix.trans (by decide) h)
    simp [step, startsWith, List.isPrefixOf, hskip] at hsigns hheader ⊢
    rw [if_neg hheader, if_pos (by simpa [← Bool.not_eq_true] using hsigns)]
    exact onCurrent_definedName? r text

/-- What was read in between names symbols of the open section, and no more. -/
def Adds (r r' : DiffReading) (names : List String) : Prop :=
  ∃ b, r' = { r.onCurrent (·.addSymbols names) with oldSideEmpty := b }

section Adds

variable {r}
variable {r' r'' : DiffReading} {names more : List String}

theorem adds_nil : Adds r r [] :=
  ⟨r.oldSideEmpty, by rw [DiffReading.onCurrent_addSymbols_nil]⟩

theorem Adds.trans (h : Adds r r' names) (h' : Adds r' r'' more) : Adds r r'' (names ++ more) := by
  obtain ⟨b, rfl⟩ := h
  obtain ⟨b', rfl⟩ := h'
  refine ⟨b', ?_⟩
  simp only [DiffReading.onCurrent, FileChange.addSymbols, foldl_append, Option.map_map]
  rfl

theorem Adds.foldl {α : Type} (text named : α → List String) {pieces : List α}
    (h : ∀ a ∈ pieces, ∀ r, Adds r ((text a).foldl step r) (named a)) (r : DiffReading) :
    Adds r ((pieces.flatMap text).foldl step r) (pieces.flatMap named) := by
  induction pieces generalizing r with
  | nil => exact adds_nil
  | cons a pieces ih =>
    rw [flatMap_cons, flatMap_cons, foldl_append]
    exact (h a mem_cons_self r).trans (ih (fun b hb => h b (mem_cons_of_mem a hb)) _)

end Adds

def lineNames (l : LineMark × String) : List String :=
  if l.1 = .kept then [] else (definedName? l.2).toList

theorem adds_line {l : LineMark × String} (hquiet : ¬ Noisy l) :
    Adds r (r.step (l.1.sign ++ l.2)) (lineNames l) := by
  obtain ⟨mark, text⟩ := l
  cases mark with
  | kept =>
    rw [LineMark.sign, step_kept]
    exact adds_nil
  | added => exact ⟨r.oldSideEmpty, step_added r fun hlooks => hquiet ⟨rfl, hlooks⟩⟩
  | removed => exact step_removed r text

theorem Hunk.named_eq (h : Hunk) : h.named = hunkNames h.header ++ h.lines.flatMap lineNames := by
  rw [Hunk.named]
  congr 1
  induction h.lines with
  | nil => rfl
  | cons l ls ih =>
    rw [flatMap_cons, ← ih, lineNames]
    by_cases hkept : l.1 = .kept
    · simp [hkept]
    · cases hname : definedName? l.2 <;> simp [hkept, hname]

theorem adds_hunk (hquiet : ∀ l ∈ h.lines, ¬ Noisy l) : Adds r (h.text.foldl step r) h.named := by
  have hheader : Adds r (r.step h.header) (hunkNames h.header) := ⟨r.oldSideEmpty, step_hunk r h⟩
  have hlines := Adds.foldl (fun l : LineMark × String => [l.1.sign ++ l.2]) lineNames
    (fun l hl r => adds_line r (hquiet l hl)) (r.step h.header)
  rw [← map_eq_flatMap] at hlines
  rw [Hunk.text, foldl_cons, Hunk.named_eq]
  exact hheader.trans hlines

/-! ## Sections

Only the headers of a section change the list of files; its hunks add symbols to the last one. -/

def DiffReading.files (r : DiffReading) : List FileSection :=
  r.closed ++ r.current.toList

/-- A file is open as soon as one has been read. -/
def DiffReading.Settled (r : DiffReading) : Prop :=
  r.current = none → r.closed = []

def DiffSection.fresh (s : DiffSection) : FileSection :=
  ⟨(⟨s.path, s.status, []⟩ : FileChange).addSymbols s.named, 0⟩

/-- What a section does to the list of files. One for a modified file adds a file to the list. One
for an added file also marks the file before it, and one for a deleted file marks the file before it
and has it reported once more instead of its own. -/
def take (files : List FileSection) (s : DiffSection) : List FileSection :=
  match s.status with
  | .modified => files ++ [s.fresh]
  | .added => files.modifyLast (fun f => { f with change.status := .added }) ++ [s.fresh]
  | .deleted => files.modifyLast fun f =>
      ⟨({ f.change with status := .deleted } : FileChange).addSymbols s.named, f.emptySides + 1⟩

theorem files_map_current {r : DiffReading} (hr : r.Settled) (g : FileSection → FileSection) :
    ({ r with current := r.current.map g } : DiffReading).files = r.files.modifyLast g := by
  obtain ⟨closed, current, old⟩ := r
  cases current with
  | none =>
    obtain rfl : closed = [] := hr rfl
    rfl
  | some f => exact (modifyLast_concat g f closed).symm

theorem modifyLast_modifyLast {α : Type} (f g : α → α) (xs : List α) :
    (xs.modifyLast f).modifyLast g = xs.modifyLast fun a => g (f a) := by
  rcases eq_nil_or_concat xs with rfl | ⟨front, x, rfl⟩
  · rfl
  · rw [concat_eq_append, modifyLast_concat, modifyLast_concat, modifyLast_concat]

theorem DiffReading.Settled.map_current {r : DiffReading} (hr : r.Settled)
    (g : FileSection → FileSection) :
    ({ r with current := r.current.map g } : DiffReading).Settled :=
  fun hnone => hr (Option.map_eq_none_iff.1 hnone)

theorem Adds.files {r r' : DiffReading} {names : List String} (h : Adds r r' names)
    (hr : r.Settled) :
    r'.Settled ∧ r'.files = r.files.modifyLast fun f =>
      { f with change := f.change.addSymbols names } := by
  obtain ⟨b, rfl⟩ := h
  exact ⟨hr.map_current _, files_map_current hr _⟩

theorem foldl_index (index : Option String) :
    (index.map ("index " ++ ·)).toList.foldl step r = r := by
  cases index with
  | none => rfl
  | some i => rw [Option.map_some, Option.toList_some, foldl_cons, foldl_nil, step_index]

def DiffSection.headers (s : DiffSection) : List String :=
  ("diff --git a/" ++ s.path ++ " b/" ++ s.path) :: (s.modeLine ++
    (s.index.map ("index " ++ ·)).toList ++ [s.oldSide, s.newSide])

def takeHeaders (files : List FileSection) (s : DiffSection) : List FileSection :=
  match s.status with
  | .modified => files ++ [⟨⟨s.path, .modified, []⟩, 0⟩]
  | .added => files.modifyLast (fun f => { f with change.status := .added }) ++
      [⟨⟨s.path, .added, []⟩, 0⟩]
  | .deleted => files.modifyLast fun f => ⟨{ f.change with status := .deleted }, f.emptySides + 1⟩

theorem files_headers {r : DiffReading} (hr : r.Settled) (hpath : s.path ≠ "") :
    (s.headers.foldl step r).Settled ∧
      (s.headers.foldl step r).files = takeHeaders r.files s := by
  rw [DiffSection.headers, foldl_cons, step_section, foldl_append, foldl_append]
  -- a line with a mode comes before the line with the new path, so it is about the file before
  cases hstatus : s.status with
  | modified =>
    have hheader (r : DiffReading) : [s.oldSide, s.newSide].foldl step r =
        ({ r with oldSideEmpty := false } : DiffReading).openSection s.path := by
      simp [DiffSection.oldSide, DiffSection.newSide, hstatus, step_oldPath, step_newPath _ hpath]
    simp only [DiffSection.modeLine, hstatus, foldl_nil, foldl_index, hheader, takeHeaders]
    exact ⟨by simp [openSection, DiffReading.Settled], rfl⟩
  | added =>
    have hheader (r : DiffReading) : [s.oldSide, s.newSide].foldl step r =
        ({ r with oldSideEmpty := true } : DiffReading).openSection s.path := by
      simp [DiffSection.oldSide, DiffSection.newSide, hstatus, step_oldEmpty, step_newPath _ hpath]
    have hmark := files_map_current hr fun f => { f with change.status := FileStatus.added }
    simp only [DiffSection.modeLine, hstatus, foldl_cons, foldl_nil, step_addedMode, foldl_index,
      hheader, takeHeaders, ← hmark]
    exact ⟨by simp [openSection, DiffReading.Settled], rfl⟩
  | deleted =>
    have hheader (r : DiffReading) : [s.oldSide, s.newSide].foldl step r =
        { r with
          current := r.current.map fun f => { f with emptySides := f.emptySides + 1 }
          oldSideEmpty := false } := by
      have hempty := step_newEmpty { r with oldSideEmpty := false } ""
      rw [String.append_empty] at hempty
      simp [DiffSection.oldSide, DiffSection.newSide, hstatus, step_oldPath, hempty]
    have hmark := hr.map_current fun f => { f with change.status := FileStatus.deleted }
    simp only [DiffSection.modeLine, hstatus, foldl_cons, foldl_nil, step_deletedMode, foldl_index,
      hheader, takeHeaders]
    refine ⟨hmark.map_current _, (files_map_current hmark _).trans ?_⟩
    rw [files_map_current hr]
    exact modifyLast_modifyLast _ _ _

theorem DiffSection.text_eq (s : DiffSection) :
    s.text = s.headers ++ s.hunks.flatMap Hunk.text := by
  simp [DiffSection.text, DiffSection.headers]

/-- The step: a section does to the files what `take` says. -/
theorem files_section {r : DiffReading} (hr : r.Settled) (hs : s.Plain) (hquiet : s.Quiet) :
    (s.text.foldl step r).Settled ∧ (s.text.foldl step r).files = take r.files s := by
  obtain ⟨hsettled, hfiles⟩ := files_headers hr hs.path_ne
  have hhunks := Adds.foldl Hunk.text Hunk.named (fun h hh r => adds_hunk r (hquiet h hh))
    (s.headers.foldl step r)
  obtain ⟨hsettled', hfiles'⟩ := hhunks.files hsettled
  rw [s.text_eq, foldl_append]
  refine ⟨hsettled', ?_⟩
  rw [hfiles', hfiles, takeHeaders, take]
  cases hstatus : s.status with
  | modified => simp [modifyLast_concat, DiffSection.fresh, hstatus, DiffSection.named]
  | added => simp [modifyLast_concat, DiffSection.fresh, hstatus, DiffSection.named]
  | deleted => exact modifyLast_modifyLast _ _ _

/-- The run, by induction on the sections. -/
theorem files_sections (h : ∀ s ∈ sections, s.Plain) (hquiet : ∀ s ∈ sections, s.Quiet)
    {r : DiffReading} (hr : r.Settled) :
    ((sections.flatMap DiffSection.text).foldl step r).files = sections.foldl take r.files := by
  induction sections generalizing r with
  | nil => rfl
  | cons s sections ih =>
    rw [forall_mem_cons] at h hquiet
    obtain ⟨hsettled, hfiles⟩ := files_section hr h.1 hquiet.1
    rw [flatMap_cons, foldl_append, foldl_cons, ← hfiles]
    exact ih h.2 hquiet.2 hsettled

theorem oneLine_append {a b : String} : OneLine (a ++ b) ↔ OneLine a ∧ OneLine b := by
  simp only [OneLine, toList_append, mem_append, or_imp, forall_and]

theorem oneLine_of_all {s : String} (h : s.toList.all (fun c => !isLineEnd c)) : OneLine s := by
  intro c hc
  simpa using all_eq_true.1 h c hc

theorem oneLine_header (hplaces : OneLine h.places) (hcontext : OneLine h.context) :
    OneLine h.header := by
  have hend : OneLine (if h.context.isEmpty then "" else " " ++ h.context) := by
    split
    · exact oneLine_of_all (by decide)
    · exact oneLine_append.2 ⟨oneLine_of_all (by decide), hcontext⟩
  simp only [Hunk.header, oneLine_append, hplaces, hend, and_true]
  exact ⟨oneLine_of_all (by decide), oneLine_of_all (by decide)⟩

theorem oneLine_hunk (hplaces : OneLine h.places) (hcontext : OneLine h.context)
    (hlines : ∀ l ∈ h.lines, OneLine l.2) :
    ∀ l ∈ h.text, OneLine l := by
  intro l hl
  rcases mem_cons.1 hl with rfl | hl
  · exact oneLine_header hplaces hcontext
  · obtain ⟨⟨mark, text⟩, hmem, rfl⟩ := mem_map.1 hl
    have hsign : OneLine mark.sign := by cases mark <;> exact oneLine_of_all (by decide)
    exact oneLine_append.2 ⟨hsign, hlines _ hmem⟩

theorem DiffSection.Plain.oneLine_text (hs : s.Plain) : ∀ l ∈ s.text, OneLine l := by
  intro l hl
  simp only [DiffSection.text, mem_cons, mem_append, not_mem_nil, or_false] at hl
  rcases hl with rfl | ((hl | hl) | rfl | rfl) | hl
  · simp only [oneLine_append, hs.path, and_true]
    exact ⟨oneLine_of_all (by decide), oneLine_of_all (by decide)⟩
  · rw [DiffSection.modeLine] at hl
    split at hl
    · cases hl
    all_goals
      obtain rfl := mem_singleton.1 hl
      exact oneLine_append.2 ⟨oneLine_of_all (by decide), hs.mode⟩
  · obtain ⟨i, hi, rfl⟩ := Option.map_eq_some_iff.1 (Option.mem_toList.1 hl)
    exact oneLine_append.2 ⟨oneLine_of_all (by decide), hs.index i hi⟩
  · rw [DiffSection.oldSide]
    split
    · exact oneLine_of_all (by decide)
    · exact oneLine_append.2 ⟨oneLine_of_all (by decide), hs.path⟩
  · rw [DiffSection.newSide]
    split
    · exact oneLine_of_all (by decide)
    · exact oneLine_append.2 ⟨oneLine_of_all (by decide), hs.path⟩
  · obtain ⟨h, hh, hl⟩ := mem_flatMap.1 hl
    exact oneLine_hunk (hs.places h hh) (hs.context h hh) (hs.lines h hh) l hl

theorem filesOf_diffText (h : ∀ s ∈ sections, s.Plain) :
    filesOf (diffText sections) =
      ((sections.flatMap DiffSection.text).foldl step {}).files.flatMap FileSection.reports := by
  have hlines : Text.lines (diffText sections) = sections.flatMap DiffSection.text := by
    refine Text.lines_join fun l hl => ?_
    obtain ⟨s, hs, hl⟩ := mem_flatMap.1 hl
    exact (h s hs).oneLine_text l hl
  rw [filesOf, hlines]
  rfl

/-- **Reading a diff is taking its sections one after the other**, if no line in them is taken for a
header. -/
theorem filesOf_of_quiet (h : ∀ s ∈ sections, s.Plain) (hquiet : ∀ s ∈ sections, s.Quiet) :
    filesOf (diffText sections) = (sections.foldl take []).flatMap FileSection.reports := by
  rw [filesOf_diffText h, files_sections h hquiet fun _ => rfl]
  rfl

end CodeAtlas.Change
