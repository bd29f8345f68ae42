import Mathlib.Data.List.Forall2
import Mathlib.Data.List.Nodup
import CodeAtlas.Proofs.DiffSections

/-!
# Files that a diff is attributed to

A header for an added or a deleted file marks the file that was open before it. So whether each
section of a diff is reported as its own file, with its own status and symbols, depends on the
sections before it.
-/

namespace CodeAtlas.Change

open List
open DiffReading (step)
open DiffSection (fresh)
open FileSection (reports)

/-! ## Sections that are reported as they are

Here no line is taken for a header, so `take` says what each section does to the files. -/

def Attributed (files : List FileChange) (sections : List DiffSection) : Prop :=
  List.Forall₂ (fun f s => f.path = s.path ∧ f.status = s.status ∧ ∀ x ∈ f.symbols, x ∈ s.named)
    files sections

variable {sections good front rest : List DiffSection} {s x : DiffSection}

theorem Attributed.map_eq {files : List FileChange} (h : Attributed files sections) :
    files.map (·.path) = sections.map (·.path) ∧ files.map (·.status) = sections.map
      (·.status) := by
  induction h with
  | nil => exact ⟨rfl, rfl⟩
  | cons hfile _ ih => exact ⟨cons_eq_cons.2 ⟨hfile.1, ih.1⟩, cons_eq_cons.2 ⟨hfile.2.1, ih.2⟩⟩

/-- No file is deleted, and none is added after one that is modified. -/
def AddedFirst (sections : List DiffSection) : Prop :=
  (∀ s ∈ sections, s.status ≠ .deleted) ∧ sections.Pairwise fun s t => t.status = .added →
    s.status = .added

theorem exists_addSymbols (f : FileChange) (names : List String) :
    ∃ symbols, f.addSymbols names = { f with symbols := symbols } ∧ ∀ x ∈ symbols, x ∈ f.symbols ∨
      x ∈ names := by
  induction names generalizing f with
  | nil => exact ⟨f.symbols, rfl, fun x hx => .inl hx⟩
  | cons name names ih =>
    obtain ⟨symbols, hadd, hmem⟩ := ih (f.addSymbol name)
    refine ⟨symbols, ?_, fun x hx => ?_⟩
    · refine hadd.trans ?_
      rw [FileChange.addSymbol]
      split <;> rfl
    · rcases hmem x hx with hx | hx
      · rw [FileChange.addSymbol] at hx
        split at hx
        · exact .inl hx
        · rcases mem_append.1 hx with hx | hx
          · exact .inl hx
          · exact .inr (mem_singleton.1 hx ▸ mem_cons_self)
      · exact .inr (mem_cons_of_mem name hx)

theorem fresh_change (s : DiffSection) :
    s.fresh.change.path = s.path ∧ s.fresh.change.status = s.status ∧
    ∀ x ∈ s.fresh.change.symbols, x ∈ s.named := by
  obtain ⟨symbols, hadd, hmem⟩ := exists_addSymbols ⟨s.path, s.status, []⟩ s.named
  have hchange : s.fresh.change = ⟨s.path, s.status, symbols⟩ := hadd
  rw [hchange]
  exact ⟨rfl, rfl, fun x hx => (hmem x hx).resolve_left not_mem_nil⟩

theorem take_fresh (h : AddedFirst (good ++ [s])) :
    take (good.map fresh) s = (good ++ [s]).map fresh := by
  rw [map_append, map_singleton, take]
  cases hstatus : s.status with
  | modified => rfl
  | deleted => exact absurd hstatus (h.1 s (by simp))
  | added =>
    -- the file before was added too, so nothing is marked anew
    have hmark : (good.map fresh).modifyLast (fun f => { f with change.status := .added }) =
        good.map fresh := by
      rcases eq_nil_or_concat good with rfl | ⟨front, t, rfl⟩
      · rfl
      · rw [concat_eq_append] at h ⊢
        have ht : t.status = .added := (pairwise_append.1 h.2).2.2 t (by simp) s (by simp) hstatus
        have hfresh := (fresh_change t).2.1
        rw [ht] at hfresh
        rw [map_append, map_singleton, modifyLast_concat, ← hfresh]
    exact congrArg (· ++ [s.fresh]) hmark

theorem foldl_take_of_addedFirst (h : AddedFirst sections) :
    sections.foldl take [] = sections.map fresh := by
  induction sections using List.reverseRecOn with
  | nil => rfl
  | append_singleton front s ih =>
    have hfront : AddedFirst front :=
      ⟨fun t ht => h.1 t (mem_append_left _ ht), (pairwise_append.1 h.2).1⟩
    rw [foldl_append, ih hfront]
    exact take_fresh h

theorem flatMap_reports_fresh (sections : List DiffSection) :
    (sections.map fresh).flatMap reports = sections.map (·.fresh.change) := by
  rw [flatMap_map, map_eq_flatMap]
  rfl

theorem attributed_of_addedFirst (h : AddedFirst sections) :
    Attributed ((sections.foldl take []).flatMap reports) sections := by
  rw [foldl_take_of_addedFirst h, flatMap_reports_fresh, Attributed, forall₂_map_left_iff]
  exact forall₂_same.2 fun s _ => fresh_change s

/-! A file that was read wrongly stays so: later sections leave all files but the last alone, and
the last one is reported no less often than before. -/

/-- A change of the last file is one of `f` or of a file behind it. -/
theorem modifyLast_append_cons {g : FileSection → FileSection}
    (hg : ∀ f, f.emptySides ≤ (g f).emptySides)
    (front : List FileSection) (f : FileSection) (back : List FileSection) :
    ∃ f' back', (front ++ f :: back).modifyLast g = front ++ f' :: back' ∧
      f.emptySides ≤ f'.emptySides ∧ (back ≠ [] → f' = f ∧ back' ≠ []) := by
  rcases eq_nil_or_concat back with rfl | ⟨middle, last, rfl⟩
  · exact ⟨g f, [], modifyLast_concat g f front, hg f, fun h => absurd rfl h⟩
  · refine ⟨f, middle ++ [g last], ?_, le_rfl, fun _ => ⟨rfl, by simp⟩⟩
    have hassoc : front ++ f :: middle.concat last = (front ++ f :: middle) ++ [last] := by simp
    rw [hassoc, modifyLast_concat, append_assoc, cons_append]

theorem take_append_cons (s : DiffSection) (front : List FileSection) (f : FileSection)
    (back : List FileSection) :
    ∃ f' back', take (front ++ f :: back) s = front ++ f' :: back' ∧ f.emptySides ≤ f'.emptySides ∧
      (back ≠ [] → f' = f ∧ back' ≠ []) := by
  rw [take]
  cases s.status with
  | modified => exact ⟨f, back ++ [s.fresh], by simp, le_rfl, fun _ => ⟨rfl, by simp⟩⟩
  | added =>
    obtain ⟨f', back', heq, hle, hkeep⟩ :=
      modifyLast_append_cons (g := fun f => { f with change.status := .added }) (fun _ => le_rfl)
        front f back
    exact ⟨f', back' ++ [s.fresh], by simp [heq], hle, fun h => ⟨(hkeep h).1, by simp⟩⟩
  | deleted => exact modifyLast_append_cons (fun f => Nat.le_succ f.emptySides) front f back

theorem foldl_take_append_cons (rest : List DiffSection) (front : List FileSection)
    (f : FileSection) (back : List FileSection) :
    ∃ f' back', rest.foldl take (front ++ f :: back) = front ++ f' :: back' ∧
      f.emptySides ≤ f'.emptySides ∧ (back ≠ [] → f' = f) := by
  induction rest generalizing f back with
  | nil => exact ⟨f, back, rfl, le_rfl, fun _ => rfl⟩
  | cons s rest ih =>
    obtain ⟨f₁, back₁, hstep, hle₁, hkeep₁⟩ := take_append_cons s front f back
    obtain ⟨f₂, back₂, hrun, hle₂, hkeep₂⟩ := ih f₁ back₁
    refine ⟨f₂, back₂, ?_, hle₁.trans hle₂, fun h => ?_⟩
    · rw [foldl_cons, hstep, hrun]
    · obtain ⟨hf, hback⟩ := hkeep₁ h
      exact (hkeep₂ hback).trans hf

theorem length_reports_foldl_take (rest : List DiffSection) (files : List FileSection) :
    ((rest.foldl take files).flatMap reports).length ≤
      (files.flatMap reports).length + rest.length := by
  have hstep (files : List FileSection) (s : DiffSection) :
      ((take files s).flatMap reports).length ≤ (files.flatMap reports).length + 1 := by
    rw [take]
    rcases eq_nil_or_concat files with rfl | ⟨front, last, rfl⟩
    · cases s.status with
      | modified | added => exact le_rfl
      | deleted => exact Nat.zero_le 1
    · cases s.status <;>
        simp [reports, modifyLast_concat, fresh, Nat.add_assoc]
  induction rest generalizing files with
  | nil => exact le_rfl
  | cons s rest ih =>
    have hrun := ih (take files s)
    have hone := hstep files s
    rw [foldl_cons, length_cons]
    omega

/-- What is reported from the place of a section on belongs to the sections from it on. -/
theorem Attributed.drop_fresh {back : List DiffSection} {files : List FileSection}
    (h : Attributed ((front.map fresh ++ files).flatMap reports) (front ++ back)) :
    Attributed (files.flatMap reports) back := by
  have hdrop := forall₂_drop_append _ _ _ h
  rwa [flatMap_append, flatMap_reports_fresh, drop_left' (length_map _)] at hdrop

theorem deleted_or_added_of_break (hgood : AddedFirst good) (hx : ¬ AddedFirst (good ++ [x])) :
    x.status = .deleted ∨ x.status = .added ∧ ∃ front s, good = front ++ [s] ∧
      s.status ≠ .added := by
  by_contra! hnot
  obtain ⟨hdel, hadd⟩ := hnot
  refine hx ⟨fun t ht => ?_, pairwise_append.2 ⟨hgood.2, pairwise_singleton _ _, ?_⟩⟩
  · rcases mem_append.1 ht with ht | ht
    · exact hgood.1 t ht
    · exact mem_singleton.1 ht ▸ hdel
  · intro t ht y hy hyadded
    obtain rfl := mem_singleton.1 hy
    rcases eq_nil_or_concat good with rfl | ⟨front, s, rfl⟩
    · cases ht
    · rw [concat_eq_append] at hgood ht hadd
      -- all files stand at or before the last one, which was added
      have hs := hadd hyadded front s rfl
      rcases mem_append.1 ht with ht | ht
      · exact (pairwise_append.1 hgood.2).2.2 t ht s (by simp) hs
      · exact mem_singleton.1 ht ▸ hs

theorem not_attributed_of_deleted_head (rest : List DiffSection) (hx : x.status = .deleted) :
    ¬ Attributed ((rest.foldl take (take [] x)).flatMap reports) (x :: rest) := by
  intro h
  have htake : take [] x = [] := by
    rw [take, hx]
    rfl
  -- the other sections cannot make up for the report that is missing
  have hcount := length_reports_foldl_take rest []
  have hlength := h.length_eq
  rw [htake, length_cons] at hlength
  rw [flatMap_nil, length_nil] at hcount
  omega

/-- The file before a deleted one is reported twice, as one file. -/
theorem not_attributed_of_deleted (hs : s.status ≠ .deleted) (hx : x.status = .deleted) :
    ¬ Attributed ((rest.foldl take (take ((front ++ [s]).map fresh) x)).flatMap reports)
      (front ++ s :: x :: rest) := by
  intro h
  have htake : ∃ change, take ((front ++ [s]).map fresh) x =
      front.map fresh ++ [⟨change, 1⟩] := by
    rw [take, hx, map_append, map_singleton]
    exact ⟨_, modifyLast_concat _ _ _⟩
  obtain ⟨change, htake⟩ := htake
  obtain ⟨f, back, hrun, htwice, -⟩ := foldl_take_append_cons rest (front.map fresh) ⟨change, 1⟩ []
  have hreports :
      f.reports = f.change :: f.change :: List.replicate (f.emptySides - 1) f.change := by
    have hsides : f.emptySides + 1 = f.emptySides - 1 + 1 + 1 := by
      have htwice : 1 ≤ f.emptySides := htwice
      omega
    rw [reports, hsides, replicate_succ, replicate_succ]
  rw [htake, hrun] at h
  -- the second report stands where the deleted file should: one status for both files
  have hdrop := h.drop_fresh
  rw [flatMap_cons, hreports] at hdrop
  obtain ⟨⟨-, hfirst, -⟩, hdrop⟩ := forall₂_cons.1 hdrop
  obtain ⟨⟨-, hsecond, -⟩, -⟩ := forall₂_cons.1 hdrop
  exact hs (by rw [← hfirst, hsecond, hx])

/-- The file before an added one is marked as added, and left alone from then on. -/
theorem not_attributed_of_added (hs : s.status ≠ .added) (hx : x.status = .added) :
    ¬ Attributed ((rest.foldl take (take ((front ++ [s]).map fresh) x)).flatMap reports)
      (front ++ s :: x :: rest) := by
  intro h
  have htake : take ((front ++ [s]).map fresh) x = front.map fresh ++
      { s.fresh with change.status := .added } :: [x.fresh] := by
    rw [take, hx, map_append, map_singleton]
    simp only [modifyLast_concat, append_assoc, singleton_append]
  obtain ⟨f, back, hrun, -, hkeep⟩ := foldl_take_append_cons rest (front.map fresh)
    { s.fresh with change.status := .added } [x.fresh]
  obtain rfl := hkeep (cons_ne_nil _ _)
  rw [htake, hrun] at h
  obtain ⟨⟨-, hmarked, -⟩, -⟩ := forall₂_cons.1 h.drop_fresh
  exact hs hmarked.symm

/-- A section that breaks the order is read wrongly, whatever follows it. -/
theorem not_attributed_of_break (rest : List DiffSection) (hgood : AddedFirst good)
    (hx : ¬ AddedFirst (good ++ [x])) :
    ¬ Attributed ((rest.foldl take (take (good.map fresh) x)).flatMap reports)
      (good ++ x :: rest) := by
  rcases deleted_or_added_of_break hgood hx with hdel | ⟨hadd, front, s, rfl, hs⟩
  · rcases eq_nil_or_concat good with rfl | ⟨front, s, rfl⟩
    · exact not_attributed_of_deleted_head rest hdel
    · rw [concat_eq_append] at hgood ⊢
      rw [append_assoc]
      exact not_attributed_of_deleted (hgood.1 s (by simp)) hdel
  · rw [append_assoc]
    exact not_attributed_of_added hs hadd

theorem addedFirst_of_attributed (good : List DiffSection) (hgood : AddedFirst good)
    (h : Attributed ((rest.foldl take (good.map fresh)).flatMap reports) (good ++ rest)) :
    AddedFirst (good ++ rest) := by
  induction rest generalizing good with
  | nil => rwa [append_nil]
  | cons x rest ih =>
    by_cases hx : AddedFirst (good ++ [x])
    · rw [foldl_cons, take_fresh hx] at h
      have hassoc : good ++ x :: rest = good ++ [x] ++ rest := append_cons _ _ _
      rw [hassoc] at h ⊢
      exact ih (good ++ [x]) hx h
    · exact absurd h (not_attributed_of_break rest hgood hx)

/-- Where no line is taken for a header, each section of a diff is reported as its own file if and
only if no file is deleted and none is added after one that is modified. What breaks this order is
read wrongly at once, and later sections do not put it right (`foldl_take_append_cons`). -/
theorem attributed_iff_of_quiet (h : ∀ s ∈ sections, s.Plain) (hquiet : ∀ s ∈ sections, s.Quiet) :
    Attributed (filesOf (diffText sections)) sections ↔ AddedFirst sections := by
  rw [filesOf_of_quiet h hquiet]
  exact ⟨addedFirst_of_attributed [] ⟨forall_mem_nil _, .nil⟩, attributed_of_addedFirst⟩

/-! ## Lines that are taken for headers

Such a line only ever adds reports, so counting them shows that it was there. -/

def reportCount (files : List FileSection) : Nat :=
  (files.flatMap reports).length

/-- A file that is reported as deleted is reported more than once. -/
def FileSection.DeletedTwice (f : FileSection) : Prop :=
  f.change.status = .deleted → f.emptySides ≠ 0

variable {files files' files'' : List FileSection} {f : FileSection} {g : FileSection → FileSection}
  {p q : Prop}

theorem deletedTwice_of_ne (h : f.change.status ≠ .deleted) : f.DeletedTwice :=
  fun hdel => absurd hdel h

theorem reportCount_concat (files : List FileSection) (f : FileSection) :
    reportCount (files ++ [f]) = reportCount files + (f.emptySides + 1) := by
  simp [reportCount, reports]

theorem reportCount_modifyLast {k : Nat} (hg : ∀ f, (g f).emptySides = f.emptySides + k)
    (hne : files ≠ []) : reportCount (files.modifyLast g) = reportCount files + k := by
  rcases eq_nil_or_concat files with rfl | ⟨front, last, rfl⟩
  · exact absurd rfl hne
  · rw [concat_eq_append, modifyLast_concat, reportCount_concat, reportCount_concat, hg]
    omega

theorem modifyLast_ne_nil (hne : files ≠ []) : files.modifyLast g ≠ [] := by
  rcases eq_nil_or_concat files with rfl | ⟨front, last, rfl⟩
  · exact absurd rfl hne
  · rw [concat_eq_append, modifyLast_concat]
    simp

theorem forall_modifyLast {P : FileSection → Prop} (hg : ∀ f, P f → P (g f))
    (h : ∀ f ∈ files, P f) :
    ∀ f ∈ files.modifyLast g, P f := by
  rcases eq_nil_or_concat files with rfl | ⟨front, last, rfl⟩
  · exact h
  · rw [concat_eq_append] at h ⊢
    rw [modifyLast_concat]
    rw [forall_mem_append, forall_mem_singleton] at h ⊢
    exact ⟨h.1, hg last h.2⟩

/-- What lines of hunks do to the files: nothing is lost, and if a line was taken for a header, a
report is added. -/
structure Grows (files files' : List FileSection) (noisy : Prop) : Prop where
  twice : (∀ f ∈ files, f.DeletedTwice) → ∀ f ∈ files', f.DeletedTwice
  ne_nil : files ≠ [] → files' ≠ []
  le : files ≠ [] → reportCount files ≤ reportCount files'
  lt : files ≠ [] → noisy → reportCount files < reportCount files'

theorem grows_refl : Grows files files False :=
  ⟨id, id, fun _ => le_rfl, fun _ => False.elim⟩

theorem Grows.trans (h : Grows files files' p) (h' : Grows files' files'' q) :
    Grows files files'' (p ∨ q) := by
  refine ⟨fun htwice => h'.twice (h.twice htwice), fun hne => h'.ne_nil (h.ne_nil hne),
    fun hne => (h.le hne).trans (h'.le (h.ne_nil hne)), fun hne hnoisy => ?_⟩
  rcases hnoisy with hp | hq
  · exact (h.lt hne hp).trans_le (h'.le (h.ne_nil hne))
  · exact (h.le hne).trans_lt (h'.lt (h.ne_nil hne) hq)

theorem Grows.imp (h : Grows files files' p) (himp : q → p) : Grows files files' q :=
  ⟨h.twice, h.ne_nil, h.le, fun hne hq => h.lt hne (himp hq)⟩

theorem grows_modifyLast {k : Nat} (hsides : ∀ f, (g f).emptySides = f.emptySides + k)
    (hstatus : ∀ f, (g f).change.status = f.change.status) :
    Grows files (files.modifyLast g) (0 < k) := by
  refine ⟨forall_modifyLast fun f hf hdel => ?_, modifyLast_ne_nil, fun hne => ?_, fun hne hk => ?_⟩
  · have hsome := hf ((hstatus f).symm.trans hdel)
    rw [hsides]
    omega
  · rw [reportCount_modifyLast hsides hne]
    omega
  · rw [reportCount_modifyLast hsides hne]
    omega

theorem grows_concat (hf : f.DeletedTwice) : Grows files (files ++ [f]) True := by
  refine ⟨fun htwice => ?_, fun _ => by simp, fun _ => ?_, fun _ _ => ?_⟩
  · rw [forall_mem_append, forall_mem_singleton]
    exact ⟨htwice, hf⟩
  · rw [reportCount_concat]
    omega
  · rw [reportCount_concat]
    omega

section Lines

variable {r r' : DiffReading}

theorem Adds.grows {names : List String} (h : Adds r r' names) (hr : r.Settled) :
    r'.Settled ∧ Grows r.files r'.files False := by
  obtain ⟨hsettled, hfiles⟩ := h.files hr
  refine ⟨hsettled, ?_⟩
  rw [hfiles]
  refine Grows.imp (grows_modifyLast (k := 0) (fun _ => rfl) fun f => ?_) False.elim
  obtain ⟨symbols, hadd, -⟩ := exists_addSymbols f.change names
  show (f.change.addSymbols names).status = _
  rw [hadd]

theorem grows_of_noisy {l : LineMark × String} (hr : r.Settled) (hl : Noisy l) :
    (r.step (l.1.sign ++ l.2)).Settled ∧ Grows r.files (r.step (l.1.sign ++ l.2)).files True := by
  obtain ⟨mark, text⟩ := l
  obtain ⟨rfl, ⟨path, hpath, rfl⟩ | ⟨rest, rfl⟩⟩ := hl
  · have hline : LineMark.added.sign ++ ("++ b/" ++ path) = "+++ b/" ++ path := by
      rw [← String.append_assoc]
      rfl
    rw [hline, step_newPath r hpath]
    refine ⟨by simp [DiffReading.openSection, DiffReading.Settled], grows_concat (deletedTwice_of_ne
      ?_)⟩
    split <;> simp
  · have hline : LineMark.added.sign ++ ("++ /dev/null" ++ rest) = "+++ /dev/null" ++ rest := by
      rw [← String.append_assoc]
      rfl
    rw [hline, step_newEmpty]
    refine ⟨hr.map_current _, ?_⟩
    rw [files_map_current hr]
    exact Grows.imp (grows_modifyLast (k := 1) (fun _ => rfl) fun _ => rfl) fun _ => Nat.one_pos

theorem grows_line (hr : r.Settled) (l : LineMark × String) :
    (r.step (l.1.sign ++ l.2)).Settled ∧ Grows r.files (r.step (l.1.sign ++ l.2)).files
      (Noisy l) := by
  by_cases hl : Noisy l
  · obtain ⟨hsettled, hgrows⟩ := grows_of_noisy hr hl
    exact ⟨hsettled, hgrows.imp fun _ => trivial⟩
  · obtain ⟨hsettled, hgrows⟩ := (adds_line r hl).grows hr
    exact ⟨hsettled, hgrows.imp hl⟩

theorem grows_foldl {α : Type} (text : α → List String) (noisy : α → Prop)
    (h : ∀ a, ∀ r : DiffReading, r.Settled →
      ((text a).foldl step r).Settled ∧ Grows r.files ((text a).foldl step r).files (noisy a))
    (pieces : List α) (hr : r.Settled) :
    ((pieces.flatMap text).foldl step r).Settled ∧
      Grows r.files ((pieces.flatMap text).foldl step r).files (∃ a ∈ pieces, noisy a) := by
  induction pieces generalizing r with
  | nil => exact ⟨hr, grows_refl.imp (by simp)⟩
  | cons a pieces ih =>
    obtain ⟨hsettled, hgrows⟩ := h a r hr
    obtain ⟨hsettled', hgrows'⟩ := ih hsettled
    rw [flatMap_cons, foldl_append]
    exact ⟨hsettled', (hgrows.trans hgrows').imp (exists_mem_cons_iff ..).1⟩

theorem grows_hunk (h : Hunk) (r : DiffReading) (hr : r.Settled) :
    (h.text.foldl step r).Settled ∧
      Grows r.files (h.text.foldl step r).files (∃ l ∈ h.lines, Noisy l) := by
  have hheader : Adds r (r.step h.header) (hunkNames h.header) := ⟨r.oldSideEmpty, step_hunk r h⟩
  obtain ⟨hsettled, hgrows⟩ := hheader.grows hr
  obtain ⟨hsettled', hgrows'⟩ := grows_foldl (fun l : LineMark × String => [l.1.sign ++ l.2]) Noisy
    (fun l r hr => grows_line hr l) h.lines hsettled
  rw [← map_eq_flatMap] at hsettled' hgrows'
  rw [Hunk.text, foldl_cons]
  exact ⟨hsettled', (hgrows.trans hgrows').imp .inr⟩

end Lines

theorem twice_takeHeaders (s : DiffSection) (h : ∀ f ∈ files, f.DeletedTwice) :
    ∀ f ∈ takeHeaders files s, f.DeletedTwice := by
  rw [takeHeaders]
  cases s.status with
  | modified => exact forall_mem_append.2 ⟨h, forall_mem_singleton.2 (deletedTwice_of_ne (by simp))⟩
  | added =>
    have hmarked := forall_modifyLast (g := fun f => { f with change.status := .added })
      (fun _ _ => deletedTwice_of_ne (by simp)) h
    exact forall_mem_append.2 ⟨hmarked, forall_mem_singleton.2 (deletedTwice_of_ne (by simp))⟩
  | deleted => exact forall_modifyLast (fun f _ _ => Nat.succ_ne_zero f.emptySides) h

theorem reportCount_takeHeaders (files : List FileSection) (hs : s.status ≠ .deleted) :
    takeHeaders files s ≠ [] ∧ reportCount (takeHeaders files s) = reportCount files + 1 := by
  rw [takeHeaders]
  cases hstatus : s.status with
  | deleted => exact absurd hstatus hs
  | modified => exact ⟨by simp, reportCount_concat _ _⟩
  | added =>
    have hmarked : reportCount (files.modifyLast fun f => { f with change.status := .added }) =
        reportCount files := by
      by_cases hne : files = []
      · rw [hne]
        rfl
      · exact reportCount_modifyLast (k := 0) (fun _ => rfl) hne
    exact ⟨by simp, (reportCount_concat _ _).trans (congrArg (· + 1) hmarked)⟩

/-- What becomes of the files in a section with lines of any kind. -/
theorem grows_section {r : DiffReading} (hr : r.Settled) (hs : s.Plain) :
    (s.text.foldl step r).Settled ∧
      ((∀ f ∈ r.files, f.DeletedTwice) → ∀ f ∈ (s.text.foldl step r).files, f.DeletedTwice) ∧
      (s.status ≠ .deleted → reportCount r.files + 1 ≤ reportCount (s.text.foldl step r).files ∧
        (¬ s.Quiet → reportCount r.files + 1 < reportCount (s.text.foldl step r).files)) := by
  obtain ⟨hsettled, hfiles⟩ := files_headers hr hs.path_ne
  obtain ⟨hsettled', hgrows⟩ := grows_foldl Hunk.text _ grows_hunk s.hunks hsettled
  rw [hfiles] at hgrows
  rw [s.text_eq, foldl_append]
  refine ⟨hsettled', fun htwice => hgrows.twice (twice_takeHeaders s htwice), fun hstatus => ?_⟩
  obtain ⟨hne, hcount⟩ := reportCount_takeHeaders r.files hstatus
  rw [← hcount]
  refine ⟨hgrows.le hne, fun hloud => hgrows.lt hne ?_⟩
  simpa only [DiffSection.Quiet, not_forall, not_not, exists_prop] using hloud

/-- Where no file is deleted, every section is reported, and one with a line that is taken for a
header more than once. -/
theorem grows_sections (h : ∀ s ∈ sections, s.Plain) {r : DiffReading} (hr : r.Settled) :
    ((∀ f ∈ r.files, f.DeletedTwice) →
        ∀ f ∈ ((sections.flatMap DiffSection.text).foldl step r).files, f.DeletedTwice) ∧
      ((∀ s ∈ sections, s.status ≠ .deleted) →
        reportCount r.files + sections.length ≤
            reportCount ((sections.flatMap DiffSection.text).foldl step r).files ∧
          ((∃ s ∈ sections, ¬ s.Quiet) → reportCount r.files + sections.length <
            reportCount ((sections.flatMap DiffSection.text).foldl step r).files)) := by
  induction sections generalizing r with
  | nil => exact ⟨id, fun _ => ⟨le_rfl, by simp⟩⟩
  | cons s sections ih =>
    rw [forall_mem_cons] at h
    obtain ⟨hsettled, htwice, hcount⟩ := grows_section hr h.1
    obtain ⟨htwice', hcount'⟩ := ih h.2 hsettled
    rw [flatMap_cons, foldl_append, length_cons]
    refine ⟨fun hfiles => htwice' (htwice hfiles), fun hstatus => ?_⟩
    rw [forall_mem_cons] at hstatus
    obtain ⟨hle, hlt⟩ := hcount hstatus.1
    obtain ⟨hle', hlt'⟩ := hcount' hstatus.2
    refine ⟨by omega, fun hloud => ?_⟩
    rcases (exists_mem_cons_iff ..).1 hloud with hs | hrest
    · have hmore := hlt hs
      omega
    · have hmore := hlt' hrest
      omega

theorem emptySides_eq_zero (hnodup : ((files.flatMap reports).map (·.path)).Nodup)
    (hf : f ∈ files) : f.emptySides = 0 := by
  have hreports : f.reports.Sublist (files.flatMap reports) :=
    sublist_flatten_of_mem (mem_map_of_mem hf)
  have honce := hnodup.sublist (hreports.map (·.path))
  rw [reports, map_replicate, nodup_replicate] at honce
  omega

/-- **A section with a line that is taken for a header is not all that is reported**, where no path
occurs twice. -/
theorem quiet_of_attributed (h : ∀ s ∈ sections, s.Plain) (hnodup : (sections.map (·.path)).Nodup)
    (hattributed : Attributed (filesOf (diffText sections)) sections) :
    ∀ s ∈ sections, s.Quiet := by
  rw [filesOf_diffText h] at hattributed
  obtain ⟨htwice, hcount⟩ := grows_sections h (r := {}) fun _ => rfl
  set files := ((sections.flatMap DiffSection.text).foldl step {}).files
  obtain ⟨hpaths, hstatuses⟩ := hattributed.map_eq
  -- every file is reported once, so none of them as deleted
  have hstatus : ∀ s ∈ sections, s.status ≠ .deleted := by
    intro s hs hdel
    have hmem : s.status ∈ sections.map (·.status) := mem_map_of_mem hs
    rw [← hstatuses] at hmem
    obtain ⟨change, hchange, hsame⟩ := mem_map.1 hmem
    obtain ⟨f, hf, hreport⟩ := mem_flatMap.1 hchange
    obtain rfl := eq_of_mem_replicate hreport
    exact htwice (forall_mem_nil _) f hf (hsame.trans hdel)
      (emptySides_eq_zero (hpaths ▸ hnodup) hf)
  by_contra! hloud
  have hmore : 0 + sections.length < reportCount files := (hcount hstatus).2 hloud
  have hlength : reportCount files = sections.length := hattributed.length_eq
  omega

/-- **When each section of a diff is reported as its own file.** Where no line is taken for a
header, what is reported is what `take` makes of the sections, and they are reported as they are if
and only if no file is deleted and none is added after one that is modified. Where no path occurs
twice, no line may be taken for a header either. -/
theorem attributed_iff {sections : List DiffSection} (h : ∀ s ∈ sections, s.Plain) :
    ((∀ s ∈ sections, s.Quiet) →
      filesOf (diffText sections) = (sections.foldl take []).flatMap reports ∧
        (Attributed (filesOf (diffText sections)) sections ↔ AddedFirst sections)) ∧
    ((sections.map (·.path)).Nodup →
      (Attributed (filesOf (diffText sections)) sections ↔
        AddedFirst sections ∧ ∀ s ∈ sections, s.Quiet)) := by
  refine ⟨fun hquiet => ⟨filesOf_of_quiet h hquiet, attributed_iff_of_quiet h hquiet⟩,
    fun hnodup => ?_⟩
  constructor
  · intro hattributed
    have hquiet := quiet_of_attributed h hnodup hattributed
    exact ⟨(attributed_iff_of_quiet h hquiet).1 hattributed, hquiet⟩
  · rintro ⟨hadded, hquiet⟩
    exact (attributed_iff_of_quiet h hquiet).2 hadded

def deletedLast : List DiffSection :=
  [⟨"a.py", .modified, "", none, [⟨"0,0 +1", "", [(.added, "y")]⟩]⟩,
    ⟨"b.py", .deleted, "100644", some "83db48f..0000000",
      [⟨"1 +0,0", "", [(.removed, "def gone():")]⟩]⟩]

def headerInside : List DiffSection :=
  [⟨"a.py", .modified, "", none, [⟨"0,0 +1", "", [(.added, "++ b/c.py")]⟩]⟩]

theorem plain_examples : ∀ s ∈ deletedLast ++ headerInside, s.Plain := by
  have hempty : OneLine "" := oneLine_of_all (by decide)
  have hfirst : OneLine "0,0 +1" := oneLine_of_all (by decide)
  have hlast : OneLine "1 +0,0" := oneLine_of_all (by decide)
  have hadded : OneLine "y" := oneLine_of_all (by decide)
  have hindex : OneLine "83db48f..0000000" := oneLine_of_all (by decide)
  have hgone : OneLine "def gone():" := oneLine_of_all (by decide)
  have hheader : OneLine "++ b/c.py" := oneLine_of_all (by decide)
  intro s hs
  simp only [deletedLast, headerInside, cons_append, nil_append, mem_cons, not_mem_nil,
    or_false] at hs
  rcases hs with rfl | rfl | rfl
  · exact ⟨by decide, oneLine_of_all (by decide), hempty, by simp, by simpa, by simpa, by simpa⟩
  · exact ⟨by decide, oneLine_of_all (by decide), oneLine_of_all (by decide), by simpa, by simpa, by
      simpa, by simpa⟩
  · exact ⟨by decide, oneLine_of_all (by decide), hempty, by simp, by simpa, by simpa, by simpa⟩

theorem quiet_deletedLast : ∀ s ∈ deletedLast, s.Quiet := by
  have hquiet : ¬ LooksLikeSide "y" := by
    rintro (⟨path, -, h⟩ | ⟨rest, h⟩) <;> simpa using congrArg String.toList h
  intro s hs
  rcases mem_pair.1 hs with rfl | rfl
  · simpa [DiffSection.Quiet, Noisy] using hquiet
  · simp [DiffSection.Quiet, Noisy]

/-- The deleted file is not reported, and the modified one is reported twice, as deleted and with
its symbol. In the other diff a line is taken for a header. -/
theorem attributed_iff_deletedLast :
    filesOf (diffText deletedLast) = List.replicate 2 ⟨"a.py", .deleted, ["gone"]⟩ ∧
    ¬ Attributed (filesOf (diffText deletedLast)) deletedLast ∧
    ¬ Attributed (filesOf (diffText headerInside)) headerInside := by
  have hplain := forall_mem_append.1 plain_examples
  obtain ⟨hfiles, hiff⟩ := (attributed_iff hplain.1).1 quiet_deletedLast
  have hheader := (attributed_iff hplain.2).2 (nodup_singleton _)
  refine ⟨hfiles.trans (by decide +kernel), fun h => ?_, fun h => ?_⟩
  · exact (hiff.1 h).1 _ (mem_cons_of_mem _ mem_cons_self) rfl
  · refine (hheader.1 h).2 _ mem_cons_self _ mem_cons_self _ mem_cons_self ⟨rfl, .inl ⟨"c.py", ?_⟩⟩
    exact ⟨by decide, rfl⟩

end CodeAtlas.Change
