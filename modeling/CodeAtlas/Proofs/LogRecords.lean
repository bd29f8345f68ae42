import CodeAtlas.Proofs.Cutting
import CodeAtlas.Proofs.Moments
import CodeAtlas.Proofs.Reading
import CodeAtlas.Proofs.Running

/-!
# Logs are read back

A log is written record by record, and reading it gives the entries back.
-/

namespace CodeAtlas.History

open List
open Text (Clear isBlank join trim)

/-! ## Written logs

Entries, and how they are written with marks between them. -/

structure LogEntry where
  revision : String
  author : String
  date : Moment.WrittenDate
  subject : String
  files : List String := []

namespace LogEntry

def commit (e : LogEntry) : Commit :=
  ⟨e.revision, e.author, e.date.moment, e.subject, e.files⟩

def fields (e : LogEntry) : String :=
  join fieldMark [e.revision, e.author, e.date.text, e.subject]

def body (e : LogEntry) : String :=
  e.fields ++ "\n" ++ if e.files.isEmpty then "" else "\n" ++ String.join (e.files.map (· ++ "\n"))

end LogEntry

def logText (entries : List LogEntry) : String :=
  String.join (entries.map fun e => recordMark ++ e.body)

/-- The word that all marks have. -/
def markWord : String := "HAMMY_"

/-- A text that stands on one line and is free of marks. -/
structure PlainText (s : String) : Prop where
  line : '\n' ∉ s.toList
  mark : ¬ markWord.toList <:+: s.toList

def EndsFull (s : String) : Prop :=
  ∀ c ∈ s.toList.getLast?, isBlank c = false

structure LogEntry.Loggable (e : LogEntry) : Prop where
  revision_ne : e.revision ≠ ""
  revision_full : ∀ c ∈ e.revision.toList, isBlank c = false
  revision_mark : ¬ markWord.toList <:+: e.revision.toList
  author : PlainText e.author
  subject : PlainText e.subject
  subject_end : EndsFull e.subject
  files : ∀ f ∈ e.files, PlainText f ∧ EndsFull f ∧ ∃ c ∈ f.toList, isBlank c = false

/-- No text of the entry has a line end of the other kind. Revisions and dates never do. -/
structure LogEntry.Unbroken (e : LogEntry) : Prop where
  author : '\r' ∉ e.author.toList
  subject : '\r' ∉ e.subject.toList
  files : ∀ f ∈ e.files, '\r' ∉ f.toList

/-! ## Marks

A text without the word of the marks may still end in some of their dashes. -/

def markStart : List Char := "---HAMMY_".toList

/-- No mark that has begun before goes on here. -/
def MarkEdge (rest : List Char) : Prop :=
  ∀ k, 0 < k → k < markStart.length → ¬ markStart.drop k <+: rest

theorem markEdge_nil : MarkEdge [] := by
  intro k _ hk hprefix
  have hempty := prefix_nil.1 hprefix
  rw [drop_eq_nil_iff] at hempty
  omega

theorem markEdge_newline (rest : List Char) : MarkEdge ('\n' :: rest) := by
  intro k _ hk hprefix
  have hne : markStart.drop k ≠ [] := by simp; omega
  obtain ⟨after, hafter⟩ := hprefix
  cases hdrop : markStart.drop k with
  | nil => exact hne hdrop
  | cons c cs =>
    rw [hdrop] at hafter
    obtain rfl := (List.cons.inj hafter).1
    have hmem : '\n' ∈ markStart := mem_of_mem_drop (hdrop ▸ mem_cons_self)
    exact absurd hmem (by decide)

theorem markEdge_mark (rest : List Char) : MarkEdge (markStart ++ rest) := by
  intro k hpos hk hprefix
  have hlong : (markStart.drop k).length ≤ markStart.length := by simp
  have hin : markStart.drop k <+: markStart :=
    prefix_of_prefix_length_le hprefix (prefix_append _ _) hlong
  have hall : ∀ k < markStart.length, 0 < k → ¬ markStart.drop k <+: markStart := by decide
  exact hall k hk hpos hin

/-- Marks share their first characters, and these do not overlap themselves. So no mark starts in a
text without the word of the marks, be it next to a mark or at the end of a line. -/
theorem clear_of_plain {a rest tail : List Char} (ha : ¬ markWord.toList <:+: a)
    (hrest : MarkEdge rest) : Clear (markStart ++ tail) a rest := by
  intro t ht hne hsep
  have hword : markWord.toList <:+: markStart := by decide
  rcases Text.prefix_append_cases ((prefix_append markStart tail).trans hsep) with
    hin | ⟨more, hmore, heq, hprefix⟩
  · exact ha ((hword.trans hin.isInfix).trans ht.isInfix)
  · have hlength : markStart.length = t.length + more.length := by rw [heq, length_append]
    have hdrop : markStart.drop t.length = more := by rw [heq, drop_left]
    refine hrest t.length (length_pos_iff.2 hne) ?_ (hdrop ▸ hprefix)
    have := length_pos_iff.2 hmore
    omega

theorem toList_fieldMark : fieldMark.toList = markStart ++ "SEP---".toList := by decide

theorem toList_recordMark : recordMark.toList = markStart ++ "RECORD---".toList := by decide

theorem not_infix_dashes {a : List Char} (ha : ¬ markWord.toList <:+: a) :
    ¬ markWord.toList <:+: "---".toList ++ a := by
  have hdash {a : List Char} (ha : ¬ markWord.toList <:+: a) : ¬ markWord.toList <:+: '-' :: a := by
    intro hinfix
    rcases infix_cons_iff.1 hinfix with hprefix | hinfix
    · exact absurd (cons_prefix_cons.1 hprefix).1 (by decide)
    · exact ha hinfix
  exact hdash (hdash (hdash ha))

variable {fields : List String} {entries : List LogEntry}

/-- Fields are told apart, whatever dashes they have at their ends. -/
theorem splitOn_fieldMark (hne : fields ≠ []) (hfields : ∀ s ∈ fields,
    ¬ markWord.toList <:+: s.toList) : Text.splitOn fieldMark (join fieldMark fields) = fields := by
  refine Text.splitOn_join (by decide) hne fun s hs => ?_
  rw [toList_fieldMark]
  refine ⟨clear_of_plain (hfields s hs) markEdge_nil, fun rest => ?_⟩
  rw [append_assoc]
  exact clear_of_plain (hfields s hs) (markEdge_mark _)

/-- No record starts among fields. The last dashes of a mark between two fields are counted to the
field after it, since a record could only start where its own dashes end. -/
theorem clear_fields {first : String} {rest : List Char} (lead : List Char)
    (hfirst : ¬ markWord.toList <:+: lead ++ first.toList)
    (hfields : ∀ s ∈ fields, ¬ markWord.toList <:+: s.toList) (hrest : MarkEdge rest) :
    Clear recordMark.toList (lead ++ (join fieldMark (first :: fields)).toList) rest := by
  induction fields generalizing first lead with
  | nil =>
    rw [join, toList_recordMark]
    exact clear_of_plain hfirst hrest
  | cons s fields ih =>
    have hsplit : lead ++ (join fieldMark (first :: s :: fields)).toList =
        (lead ++ first.toList) ++ ((markStart ++ "SEP".toList) ++
          ("---".toList ++ (join fieldMark (s :: fields)).toList)) := by
      rw [join, String.toList_append, String.toList_append, toList_fieldMark]
      · simp
      · exact cons_ne_nil s fields
    have hs : ¬ markWord.toList <:+: "---".toList ++ s.toList :=
      not_infix_dashes (hfields s List.mem_cons_self)
    have hlater := ih _ hs fun u hu => hfields u (mem_cons_of_mem s hu)
    -- what the marks have in common is no record yet, and goes on differently
    have hmark (more : List Char) : Clear recordMark.toList (markStart ++ "SEP".toList) more := by
      intro tail htail hne hprefix
      have hlength : tail.length ≤ recordMark.toList.length := htail.length_le.trans (by decide)
      have hall : ∀ tail ∈ (markStart ++ "SEP".toList).tails, tail ≠ [] →
        ¬ tail <+: recordMark.toList := by decide
      exact hall tail ((mem_tails _ _).2 htail) hne
        (prefix_of_prefix_length_le (prefix_append tail more) hprefix hlength)
    rw [hsplit]
    refine Clear.append ?_ (Clear.append (hmark _) hlater)
    rw [toList_recordMark, append_assoc, append_assoc]
    exact clear_of_plain hfirst (markEdge_mark _)

/-! ## Records

The fields stand on the first line of a record, the files behind a blank one. -/

theorem full_of_all {s : String} (h : s.toList.all (fun c => !isBlank c)) :
    ∀ c ∈ s.toList, isBlank c = false := by
  simpa using h

theorem isBlankText_eq_false {s : String} {c : Char} (hc : c ∈ s.toList)
    (hfull : isBlank c = false) : isBlankText s = false := by
  have hne := Text.trimList_ne_nil hc hfull
  simpa [isBlankText, trim, Text.trimBy] using hne

namespace LogEntry

variable {e : LogEntry}

def lines (e : LogEntry) : List String :=
  e.fields :: if e.files.isEmpty then [] else "" :: e.files

theorem toList_body (e : LogEntry) :
    e.body.toList = e.lines.flatMap fun l => l.toList ++ ['\n'] := by
  rw [lines]
  cases hfiles : e.files with
  | nil => simp [body, hfiles]
  | cons f files => simp [body, hfiles, String.toList_join, flatMap_map]

theorem mem_lines_iff {s : String} :
    s ∈ e.lines ↔ s = e.fields ∨ e.files ≠ [] ∧ (s = "" ∨ s ∈ e.files) := by
  rw [lines, mem_cons]
  cases e.files with
  | nil => simp
  | cons f files => simp

namespace Loggable

variable (h : e.Loggable)

include h

theorem fields_mark :
    ∀ s ∈ [e.revision, e.author, e.date.text, e.subject], ¬ markWord.toList <:+: s.toList := by
  have hdate : ¬ markWord.toList <:+: e.date.text.toList := by
    intro hinfix
    have hletter : 'H' ∈ e.date.text.toList := hinfix.subset (by decide)
    exact absurd (Moment.WrittenDate.isDateChar_of_mem hletter) (by decide)
  simp only [mem_cons, not_mem_nil, or_false, forall_eq_or_imp, forall_eq]
  exact ⟨h.revision_mark, h.author.mark, hdate, h.subject.mark⟩

/-- Line ends of either kind are not in the first line of a record unless they are in its author or
its subject. -/
theorem not_mem_fields {ch : Char} (hch : ch = '\n' ∨ ch = '\r')
    (hauthor : ch ∉ e.author.toList) (hsubject : ch ∉ e.subject.toList) : ch ∉ e.fields.toList := by
  have hends : isBlank ch ≠ false ∧ ¬ Moment.IsDateChar ch ∧ ch ∉ fieldMark.toList := by
    rcases hch with rfl | rfl <;> decide
  have hrevision : ch ∉ e.revision.toList := fun hmem => hends.1 (h.revision_full ch hmem)
  have hdate : ch ∉ e.date.text.toList :=
    fun hmem => hends.2.1 (Moment.WrittenDate.isDateChar_of_mem hmem)
  simp [fields, join, hrevision, hdate, hends.2.2, hauthor, hsubject]

theorem lines_line : ∀ s ∈ e.lines, '\n' ∉ s.toList := by
  intro s hs
  rcases mem_lines_iff.1 hs with rfl | ⟨-, rfl | hs⟩
  · exact h.not_mem_fields (.inl rfl) h.author.line h.subject.line
  · simp
  · exact (h.files s hs).1.line

theorem return_not_mem_body (hunbroken : e.Unbroken) :
    '\r' ∉ e.body.toList := by
  rw [toList_body, mem_flatMap]
  rintro ⟨s, hs, hmem⟩
  have hmem : '\r' ∈ s.toList := by simpa using hmem
  rcases mem_lines_iff.1 hs with rfl | ⟨-, rfl | hs⟩
  · exact h.not_mem_fields (.inr rfl) hunbroken.author hunbroken.subject hmem
  · simp at hmem
  · exact hunbroken.files s hs hmem

theorem splitChar_lines :
    Text.splitChar '\n' (join "\n" e.lines) = e.lines := by
  have hcut : Text.splitBy (· == '\n') (join "\n" e.lines).toList = e.lines.map String.toList :=
    Text.splitBy_join (cons_ne_nil _ _) h.lines_line
  rw [Text.splitChar, hcut, map_map]
  exact (map_congr_left fun s _ => String.ofList_toList).trans (map_id _)

theorem head_lines :
    ∀ c ∈ (join "\n" e.lines).toList.head?, isBlank c = false := by
  obtain ⟨after, hafter⟩ :=
    Text.exists_toList_join_head "\n" e.fields (if e.files.isEmpty then [] else "" :: e.files)
  obtain ⟨after', hafter'⟩ :=
    Text.exists_toList_join_head fieldMark e.revision [e.author, e.date.text, e.subject]
  have hne : e.revision.toList ≠ [] := fun hnil => h.revision_ne (String.toList_eq_nil_iff.1 hnil)
  intro c hc
  rw [lines, hafter, fields, hafter', append_assoc, head?_append_of_ne_nil _ hne] at hc
  exact h.revision_full c (mem_of_mem_head? hc)

/-- A record ends with its last file, or with its subject; where that is empty, with a mark. -/
theorem last_lines :
    ∀ c ∈ (join "\n" e.lines).toList.getLast?, isBlank c = false := by
  intro c hc
  rcases eq_nil_or_concat e.files with hfiles | ⟨front, f, hfiles⟩
  · have hlines : e.lines = [e.fields] := by simp [lines, hfiles]
    obtain ⟨before, hbefore⟩ :=
      Text.exists_toList_join_last fieldMark e.subject [e.revision, e.author, e.date.text]
    rw [hlines, join, fields] at hc
    by_cases hsubject : e.subject = ""
    · have hmark : e.fields.toList =
          (e.revision ++ fieldMark ++ e.author ++ fieldMark ++ e.date.text).toList ++
            fieldMark.toList := by
        simp [fields, join, hsubject]
      rw [fields] at hmark
      have hdash : fieldMark.toList.getLast? = some '-' := by decide
      rw [hmark, getLast?_append_of_ne_nil _ (by decide), hdash] at hc
      obtain rfl := Option.mem_some_iff.1 hc
      decide
    · have hne : e.subject.toList ≠ [] := fun hnil => hsubject (String.toList_eq_nil_iff.1 hnil)
      rw [cons_append, cons_append, cons_append, nil_append] at hbefore
      rw [hbefore, getLast?_append_of_ne_nil _ hne] at hc
      exact h.subject_end c hc
  · have hlines : e.lines = (e.fields :: "" :: front) ++ [f] := by simp [lines, hfiles]
    obtain ⟨-, hend, d, hd, -⟩ := h.files f (by simp [hfiles])
    obtain ⟨before, hbefore⟩ := Text.exists_toList_join_last "\n" f (e.fields :: "" :: front)
    rw [hlines, hbefore, getLast?_append_of_ne_nil _ (ne_nil_of_mem hd)] at hc
    exact hend c hc

theorem trim_body : trim e.body = join "\n" e.lines := by
  have hne : (join "\n" e.lines).toList ≠ [] := by
    obtain ⟨after, hafter⟩ :=
      Text.exists_toList_join_head "\n" e.fields (if e.files.isEmpty then [] else "" :: e.files)
    rw [lines, hafter]
    simp [fields, join, fieldMark]
  have htrim :=
    Text.trimList_of_ends hne h.head_lines h.last_lines (forall_mem_singleton.2 (by decide) :
      ∀ c ∈ ['\n'], isBlank c)
  have hbody : e.body.toList = (join "\n" e.lines).toList ++ ['\n'] :=
    e.toList_body.trans (Text.toList_join_append "\n" (cons_ne_nil _ _)).symm
  rw [trim, Text.trimBy, hbody, htrim, String.ofList_toList]

theorem body_not_blank : isBlankText e.body = false := by
  cases hrevision : e.revision.toList with
  | nil => exact absurd (String.toList_eq_nil_iff.1 hrevision) h.revision_ne
  | cons c cs =>
    have hc : c ∈ e.revision.toList := hrevision ▸ mem_cons_self
    refine isBlankText_eq_false (c := c) ?_ (h.revision_full c hc)
    simp [body, fields, join, hc]

theorem filter_files :
    e.files.filter (fun l => !isBlankText l) = e.files := by
  rw [filter_eq_self]
  intro f hf
  obtain ⟨-, -, c, hc, hfull⟩ := h.files f hf
  rw [isBlankText_eq_false hc hfull]
  rfl

/-- **A record gives the change that it was written for.** -/
theorem parseRecord_body : parseRecord e.body = .ok (some e.commit) := by
  have hfields : Text.splitOn fieldMark e.fields = [e.revision, e.author, e.date.text, e.subject] :=
    splitOn_fieldMark (cons_ne_nil _ _) h.fields_mark
  have hdate : dateOf e.date.text = .ok e.date.moment := by rw [dateOf, e.date.parse_text]
  have hempty : isBlankText "" := by decide
  rw [parseRecord, h.trim_body, h.splitChar_lines, lines]
  simp only [hfields, hdate, bind, Except.bind, pure, Except.pure, commit]
  split
  · next hfiles => simp [List.isEmpty_iff.1 hfiles]
  · rw [filter_cons_of_neg (by simp [hempty]), h.filter_files]

theorem clear_body (rest : List Char) :
    Clear recordMark.toList e.body.toList rest := by
  have hend (more : List Char) : Clear recordMark.toList ['\n'] more := by
    refine Text.clear_cons_iff.2 ⟨fun hprefix => ?_, Text.clear_nil⟩
    rw [toList_recordMark] at hprefix
    exact absurd (cons_prefix_cons.1 hprefix).1 (by decide)
  have hbelow (ls : List String) (hls : ∀ l ∈ ls, ¬ markWord.toList <:+: l.toList) :
      Clear recordMark.toList (ls.flatMap fun l => l.toList ++ ['\n']) rest := by
    induction ls with
    | nil => exact Text.clear_nil
    | cons l ls ih =>
      refine Clear.append (Clear.append ?_ (hend _)) (ih fun l' hl' =>
        hls l' (mem_cons_of_mem l hl'))
      rw [toList_recordMark]
      exact clear_of_plain (hls l mem_cons_self) (markEdge_newline _)
  have hmarks := h.fields_mark
  rw [toList_body, lines, flatMap_cons]
  refine Clear.append (Clear.append ?_ (hend _)) (hbelow _ ?_)
  · exact clear_fields [] (hmarks _ mem_cons_self) (fun s hs => hmarks s (mem_cons_of_mem _ hs))
      (markEdge_newline _)
  · intro l hl
    split at hl
    · cases hl
    · rcases mem_cons.1 hl with rfl | hl
      · decide
      · exact (h.files l hl).1.mark

end Loggable

end LogEntry

/-- A record mark is found nowhere but between two entries. -/
theorem splitOn_logText (h : ∀ e ∈ entries, e.Loggable) :
    Text.splitOn recordMark (logText entries) = "" :: entries.map LogEntry.body := by
  have htext : (logText entries).toList = (entries.map fun e => e.body.toList).flatMap
      (recordMark.toList ++ ·) := by
    simp [logText, String.toList_join, flatMap_map]
  have hclear : ∀ a ∈ entries.map fun e => e.body.toList,
      Clear recordMark.toList a [] ∧ ∀ rest, Clear recordMark.toList a
        (recordMark.toList ++ rest) := by
    intro a ha
    obtain ⟨e, he, rfl⟩ := mem_map.1 ha
    exact ⟨(h e he).clear_body _, fun _ => (h e he).clear_body _⟩
  have hcut := Text.splitOnFrom_flatMap (by decide) hclear []
  rw [Text.splitOn, htext, hcut, map_cons, map_map]
  simp [Function.comp_def]

theorem parseRecords_logText (h : ∀ e ∈ entries, e.Loggable) :
    parseRecords (logText entries) = .ok (entries.map LogEntry.commit) := by
  have hempty : isBlankText "" := by decide
  have hfilter : ("" :: entries.map LogEntry.body).filter (fun r => !isBlankText r) =
      entries.map LogEntry.body := by
    rw [filter_cons_of_neg (by simp [hempty]), filter_eq_self]
    intro r hr
    obtain ⟨e, he, rfl⟩ := mem_map.1 hr
    rw [(h e he).body_not_blank]
    rfl
  have hread :
      (entries.map LogEntry.body).mapM parseRecord = .ok (entries.map fun e => some e.commit) := by
    rw [Index.mapM_eq_ok_iff, map_map, map_map]
    refine map_congr_left fun e he => ?_
    rw [Function.comp_apply, (h e he).parseRecord_body, Function.comp_apply]
  rw [parseRecords, splitOn_logText h, hfilter, hread]
  simp [bind, Except.bind, pure, Except.pure]

theorem return_not_mem_logText (h : ∀ e ∈ entries, e.Loggable)
    (hunbroken : ∀ e ∈ entries, e.Unbroken) : '\r' ∉ (logText entries).toList := by
  rw [logText, String.toList_join, flatMap_map, mem_flatMap]
  rintro ⟨e, he, hmem⟩
  rw [String.toList_append, mem_append] at hmem
  rcases hmem with hmark | hbody
  · exact absurd hmark (by decide)
  · exact (h e he).return_not_mem_body (hunbroken e he) hbody

def Commit.texts (c : Commit) : List String :=
  [c.revision, c.author, c.message] ++ c.files

variable {c : Commit} {ch : Char} {s text : String}

theorem mem_of_parseRecord (h : parseRecord text = .ok (some c)) (htext : s ∈ c.texts)
    (hch : ch ∈ s.toList) : ch ∈ text.toList := by
  rw [parseRecord] at h
  split at h
  · next first below hlines =>
    have hline (l : String) (hl : l ∈ first :: below) (hmem : ch ∈ l.toList) : ch ∈ text.toList :=
      Text.mem_of_mem_trim (Text.mem_of_mem_splitChar (hlines ▸ hl) hmem)
    split at h
    · next revision author date message more hfields =>
      obtain ⟨moment, -, hcommit⟩ := Extract.bind_eq_ok_iff.1 h
      obtain rfl : _ = c := by simpa [pure, Except.pure] using hcommit
      have hfield (f : String) (hf : f ∈ revision :: author :: date :: message :: more)
          (hmem : ch ∈ f.toList) :
          ch ∈ text.toList :=
        hline first mem_cons_self (Text.mem_of_mem_splitOn (hfields ▸ hf) hmem)
      simp only [Commit.texts, cons_append, nil_append, mem_cons] at htext
      rcases htext with rfl | rfl | rfl | hfile
      · exact hfield _ (by simp) hch
      · exact hfield _ (by simp) hch
      · exact hfield _ (by simp) hch
      · exact hline s (mem_cons_of_mem first (mem_of_mem_filter hfile)) hch
    · cases h
  · cases h

/-- An entry has its characters from the log that was read. -/
theorem mem_of_parseRecords {commits : List Commit} (h : parseRecords text = .ok commits)
    (hc : c ∈ commits) (htext : s ∈ c.texts) (hch : ch ∈ s.toList) : ch ∈ text.toList := by
  obtain ⟨found, hfound, hcommits⟩ := Extract.bind_eq_ok_iff.1 h
  obtain rfl : found.filterMap id = commits := by simpa [pure, Except.pure] using hcommits
  obtain ⟨c?, hmem, hsame⟩ := mem_filterMap.1 hc
  obtain rfl : c? = some c := hsame
  obtain ⟨record, hrecord, hread⟩ := Index.exists_of_mem_mapM_eq_ok hfound hmem
  exact Text.mem_of_mem_splitOn (mem_of_mem_filter hrecord) (mem_of_parseRecord hread htext hch)

def logCommand (path : String) (limit : Int) : List String :=
  ["git", "log", "--format=" ++ recordFormat, "-n" ++ toString limit, "--name-only"] ++
    if path.isEmpty then [] else ["--", path]

theorem run_of_reply {s s' : Shell} {command : List String} {r : Reply}
    (hreply : s.reply command = (r, s'))
    (hcode : r.code = 0) : (run command).run.run s = (.ok (Text.unixLines r.output), s') := by
  have hfirst : (modifyGet fun s => s.reply command : ShellM Reply).run.run s = (.ok r, s') := by
    show (Except.ok (s.reply command).1, (s.reply command).2) = _
    rw [hreply]
  rw [run, run_bind_ok hfirst, if_pos (by simp [hcode])]
  rfl

theorem logText_not_blank {e : LogEntry} : isBlankText (logText (e :: entries)) = false := by
  refine isBlankText_eq_false (c := '-') ?_ (by decide)
  have hdash : '-' ∈ recordMark.toList := by decide
  simp [logText, String.toList_join, hdash]

theorem run_log {s s' : Shell} {r : Reply} (now : Moment) {path : String} {limit : Int}
    (hreply : s.reply (logCommand path limit) = (r, s')) (hcode : r.code = 0) :
    (log .git now path limit).run.run s =
      (if isBlankText (Text.unixLines r.output) then .ok []
        else parseRecords (Text.unixLines r.output), s') := by
  have hrun := run_of_reply hreply hcode
  rw [logCommand] at hrun
  rw [log, run_bind_ok hrun]
  split
  · rfl
  · cases parseRecords (Text.unixLines r.output) with
    | error f => rfl
    | ok commits => rfl

/-- Two entries: one with an empty subject, without files and with an author between dashes, and one
without an author, whose subject and files begin and end with dashes. -/
def dashedLog : List LogEntry :=
  [⟨"a1b2c3", "-- Ann -",
    ⟨2024, 2, 29, by decide, by decide, by decide, by decide, by decide, by decide,
      some ⟨false, 86399000000, by decide, .shifted true 90 (by decide)⟩⟩, "", []⟩,
    ⟨"d4e5f6", "", ⟨1999, 12, 31, by decide, by decide, by decide, by decide, by decide, by decide,
      some ⟨true, 1500000, by decide, .universal⟩⟩, "--- HAMMY-SEP ---",
        ["a file.py", "---", " -x-"]⟩]

theorem loggable_dashedLog : ∀ e ∈ dashedLog, e.Loggable := by
  have hend {s : String} (h : s.toList.getLast?.all (fun c => !isBlank c)) : EndsFull s := by
    intro c hc
    rw [Option.mem_def.1 hc] at h
    simpa using h
  intro e he
  simp only [dashedLog, mem_cons, not_mem_nil, or_false] at he
  rcases he with rfl | rfl
  · exact ⟨by decide, full_of_all (by decide), by decide, ⟨by decide, by decide⟩, ⟨by decide, by
      decide⟩,
      hend (by decide), by simp⟩
  · refine ⟨by decide, full_of_all (by decide), by decide, ⟨by decide, by decide⟩, ⟨by decide, by
      decide⟩,
      hend (by decide), ?_⟩
    intro f hf
    simp only [mem_cons, not_mem_nil, or_false] at hf
    rcases hf with rfl | rfl | rfl
    · exact ⟨⟨by decide, by decide⟩, hend (by decide), 'a', by decide, by decide⟩
    · exact ⟨⟨by decide, by decide⟩, hend (by decide), '-', by decide, by decide⟩
    · exact ⟨⟨by decide, by decide⟩, hend (by decide), 'x', by decide, by decide⟩

def dashedShell : Shell :=
  { replies := .ofList [("git log", [⟨logText dashedLog, 0, ""⟩])] }

theorem unbroken_dashedLog : ∀ e ∈ dashedLog, e.Unbroken := by
  intro e he
  simp only [dashedLog, mem_cons, not_mem_nil, or_false] at he
  rcases he with rfl | rfl
  · exact ⟨by decide, by decide, by simp⟩
  · exact ⟨by decide, by decide, by simp⟩

end CodeAtlas.History
