import CodeAtlas.Proofs.Freshness
import CodeAtlas.Proofs.Isolation

/-!
# What a failed update leaves behind

An update first finds out which files its paths are, then takes out what these files gave, and reads
them last. So it matters where it fails. A path outside of the project, or one that cannot be looked
at, stops it before anything was touched. A language that is not known, or a source file that cannot
be read, or a directory that is named like one, stops it when the old nodes are gone and no new ones
are there; this takes along all files of the batch, also those that can be read.
-/

namespace CodeAtlas.Index

variable {t t' : Tracked} {h h' : Host} {config : Config} {root p : Path} {paths : List Path}
  {r : Readers} {fs : Files}

/-- One of the paths does not lie in the project, or cannot be looked at. -/
def Refused (root : Path) (fs : Files) (paths : List Path) : Prop :=
  ∃ p ∈ paths, p.relativeTo? root = none ∨ fs.fault? p ≠ none

/-- Something that is there, but is no file that can be read, and has the suffix of a language that
is switched on. -/
structure Obstructs (config : Config) (h : Host) (p : Path) : Prop where
  holds : h.files.holds p = true
  noFile : h.files.content? p = none
  switchedOn : ∃ l, languageOf? p = some l ∧ l.name ∈ config.parsing.languages

theorem exists_filesBelow_iff :
    (∃ files, filesBelow root fs paths = .ok files) ↔ ¬ Refused root fs paths := by
  have hbelow : ∀ p, (∃ file, fileBelow root p = .ok file) ↔ p.relativeTo? root ≠ none := by
    intro p
    simp only [fileBelow_eq_ok_iff, Option.ne_none_iff_exists']
    exact ⟨fun ⟨_, q, hq, _⟩ => ⟨q, hq⟩, fun ⟨q, hq⟩ => ⟨_, q, hq, rfl⟩⟩
  simp only [filesBelow_eq_ok_iff, exists_and_right, ← mapM_eq_ok_iff]
  rw [exists_mapM_eq_ok_iff, ← forall₂_and]
  unfold Refused
  push Not
  exact forall₂_congr fun p _ => and_congr_left' (hbelow p)

theorem not_readable_iff (hr : Readers.ofNames config.parsing.languages = .ok r)
    (hseen : h.files.fault? p = none) : ¬ Readable r h root p ↔ Obstructs config h p := by
  have hlanguage :
      r.languageOf? p ≠ none ↔ ∃ l, languageOf? p = some l ∧ l.name ∈ config.parsing.languages := by
    simp only [Option.ne_none_iff_exists', languageOf?_eq_some_iff hr]
  unfold Readable
  rw [exists_readPath_iff, and_iff_right hseen]
  constructor
  · intro hnot
    push Not at hnot
    obtain ⟨hholds, hon, hcontent⟩ := hnot
    exact ⟨hholds, hcontent, hlanguage.1 hon⟩
  · rintro ⟨hholds, hcontent, hon⟩ hreadable
    rcases hreadable hholds with hoff | hfile
    · exact hlanguage.2 hon hoff
    · exact hfile hcontent

theorem exists_readFiles_iff (hseen : ∀ p ∈ paths, h.files.fault? p = none) :
    (∃ o, readFiles config h root paths = .ok o) ↔
    (∀ n ∈ config.parsing.languages, ∃ l : Language, l.name = n) ∧ ∀ p ∈ paths,
      ¬ Obstructs config h p := by
  rw [← exists_ofNames_iff]
  constructor
  · rintro ⟨o, hread⟩
    obtain ⟨r, hr⟩ := ofNames_of_readFiles hread
    have hreadable := ((readFiles_eq_ok_iff hr).1 ⟨o.2, hread⟩).1
    refine ⟨⟨r, hr⟩, fun p hp => ?_⟩
    rw [← not_readable_iff hr (hseen p hp), not_not]
    exact hreadable p hp
  · rintro ⟨⟨r, hr⟩, hclear⟩
    have hreadable : ∀ p ∈ paths, Readable r h root p := by
      intro p hp
      by_contra hnot
      exact hclear p hp ((not_readable_iff hr (hseen p hp)).1 hnot)
    obtain ⟨errors, hread⟩ := (readFiles_eq_ok_iff hr).2 ⟨hreadable, rfl⟩
    exact ⟨_, hread⟩

variable {catalog? : Option Vector.Catalog} {f : Failure}

/-- What an update that failed has done: nothing, or it dropped its files. -/
theorem update_eq_error
    (hrun : (update root config catalog? paths).run.run (t, h) = (.error f, (t', h'))) :
    (Refused root h.files paths ∧ t' = t) ∨
      ∃ files, filesBelow root h.files paths = .ok files ∧
        (∀ o, readFiles config h root paths ≠ .ok o) ∧ t' = t.drop files := by
  obtain ⟨h₁, -, hrun₁⟩ := update_run root config catalog? paths t h
  rw [hrun] at hrun₁
  cases hfiles : filesBelow root h.files paths with
  | error e =>
    rw [hfiles] at hrun₁
    refine .inl ⟨?_, congrArg (fun o => o.2.1) hrun₁⟩
    by_contra haccepted
    obtain ⟨files, hok⟩ := exists_filesBelow_iff.2 haccepted
    rw [hfiles] at hok
    cases hok
  | ok files =>
    rw [hfiles] at hrun₁
    dsimp only at hrun₁
    cases hread : readFiles config h root paths with
    | error e =>
      rw [hread] at hrun₁
      exact .inr ⟨files, rfl, nofun, congrArg (fun o => o.2.1) hrun₁⟩
    | ok o =>
      rw [hread] at hrun₁
      cases congrArg (fun o => o.1) hrun₁

/-- **When an update fails.** -/
theorem update_eq_error_iff :
    (∃ f s, (update root config catalog? paths).run.run (t, h) = (.error f, s)) ↔
    Refused root h.files paths ∨ (∃ n ∈ config.parsing.languages, ∀ l : Language, l.name ≠ n) ∨
      ∃ p ∈ paths, Obstructs config h p := by
  have hcause (haccepted : ¬ Refused root h.files paths) :
      (∃ n ∈ config.parsing.languages, ∀ l : Language, l.name ≠ n) ∨
        (∃ p ∈ paths, Obstructs config h p) ↔ ¬ ∃ o, readFiles config h root paths = .ok o := by
    obtain ⟨files, hfiles⟩ := exists_filesBelow_iff.2 haccepted
    rw [exists_readFiles_iff (filesBelow_eq_ok_iff.1 hfiles).2, not_and_or]
    push Not
    rfl
  constructor
  · rintro ⟨f, s, hrun⟩
    rcases update_eq_error hrun with ⟨hrefused, -⟩ | ⟨files, hfiles, hread, -⟩
    · exact .inl hrefused
    · exact .inr ((hcause (exists_filesBelow_iff.1 ⟨files, hfiles⟩)).2 fun ⟨o, ho⟩ => hread o ho)
  · intro hany
    rcases hrun : (update root config catalog? paths).run.run (t, h) with ⟨f | u, s⟩
    · exact ⟨f, s, rfl⟩
    · -- an update that returned has found and read all its files
      obtain ⟨files, g, errors, hfiles, hread, -⟩ := update_eq_ok hrun
      have haccepted := exists_filesBelow_iff.1 ⟨files, hfiles⟩
      exact absurd ⟨_, hread⟩ ((hcause haccepted).1 (hany.resolve_left haccepted))

namespace Tracked

variable {files : List String}

theorem idsOf_eq_nil (hunknown : ∀ f ∈ files, t.owners.get? f = none) : t.idsOf files = [] := by
  refine List.flatMap_eq_nil_iff.2 fun f hf => ?_
  rw [hunknown f hf]
  rfl

theorem foldl_erase_eq_self {owners : OrderedMap String (List String)}
    (hunknown : ∀ f ∈ files, owners.get? f = none) :
    files.foldl OrderedMap.erase owners = owners := by
  induction files with
  | nil => rfl
  | cons f rest ih =>
    have hnone : ∀ e ∈ owners.entries, e.1 ≠ f := by
      have hlookup := List.lookup_eq_none_iff.1 (hunknown f List.mem_cons_self)
      intro e he
      simpa using Ne.symm (by simpa using hlookup e he)
    have herase : owners.erase f = owners := by
      show (⟨owners.entries.filter fun e => !(e.1 == f)⟩ : OrderedMap String (List String)) = owners
      rw [List.filter_eq_self.2 fun e he => by simpa using hnone e he]
    rw [List.foldl_cons, herase]
    exact ih fun g hg => hunknown g (List.mem_cons_of_mem f hg)

/-- Taking files out changes nothing exactly if the index remembers none of them. -/
theorem drop_eq_self_iff : t.drop files = t ↔ ∀ f ∈ files, t.owners.get? f = none := by
  constructor
  · intro hdrop f hf
    have howners : files.foldl OrderedMap.erase t.owners = t.owners := congrArg Tracked.owners hdrop
    rw [← howners, OrderedMap.get?_foldl_erase, if_pos hf]
  · intro hunknown
    obtain ⟨⟨nodes, edges⟩, owners⟩ := t
    unfold drop
    rw [idsOf_eq_nil hunknown, foldl_erase_eq_self hunknown]
    simp [Graph.without]

end Tracked

/-- **A failed update changes nothing exactly where there was nothing to lose.** An update fails if
a path lies outside of the project or cannot be looked at, if a language is not known, or if
something that is no readable file has the suffix of a language that is switched on. In the first
case the index is as it was. In the others all files of the batch are dropped and nothing is added,
so the index is as it was if and only if it remembers none of these files. -/
theorem failed_update_keeps_iff (root : Path) (config : Config) (catalog? : Option Vector.Catalog)
    (paths : List Path) (t : Tracked) (h : Host) :
    ((∃ f s, (update root config catalog? paths).run.run (t, h) = (.error f, s)) ↔
      Refused root h.files paths ∨ (∃ n ∈ config.parsing.languages, ∀ l : Language, l.name ≠ n) ∨
        ∃ p ∈ paths, Obstructs config h p) ∧
    ∀ f t' h', (update root config catalog? paths).run.run (t, h) = (.error f, (t', h')) →
      (Refused root h.files paths → t' = t) ∧
      (¬ Refused root h.files paths → ∃ files, filesBelow root h.files paths = .ok files ∧
        t' = t.drop files) ∧
      (t' = t ↔ Refused root h.files paths ∨
        ∀ p ∈ paths, ∀ file, fileBelow root p = .ok file → t.owners.get? file = none) := by
  refine ⟨update_eq_error_iff, ?_⟩
  intro f t' h' hrun
  rcases update_eq_error hrun with ⟨hout, rfl⟩ | ⟨files, hfiles, -, rfl⟩
  · exact ⟨fun _ => rfl, fun hin => absurd hout hin, iff_of_true rfl (.inl hout)⟩
  · have hin : ¬ Refused root h.files paths := exists_filesBelow_iff.1 ⟨files, hfiles⟩
    refine ⟨fun hout => absurd hout hin, fun _ => ⟨files, hfiles, rfl⟩, ?_⟩
    rw [Tracked.drop_eq_self_iff, or_iff_right hin]
    constructor
    · intro hunknown p hp file hfile
      exact hunknown file ((mem_filesBelow_iff hfiles).2 ⟨p, hp, hfile⟩)
    · intro hunknown file hfile
      obtain ⟨p, hp, hp'⟩ := (mem_filesBelow_iff hfiles).1 hfile
      exact hunknown p hp file hp'

/-! ### A script that cannot be read

The first of two scripts is replaced by a directory of its name, or its permissions are taken away,
and the second one is saved. The batch fails at the first, and the second script is gone from the
index with it, although it can be read. -/

def obstructedHost (e : Entry) : Host :=
  { requestingScripts [] with
    files := ⟨.dir [("p", .dir [("a.js", e), ("b.js", .file (requesting "g"))])]⟩ }

theorem failed_update_keeps_iff_obstructed : ∀ e ∈ [Entry.dir [], .closed (.file 9)], ∃ f t' h',
    (update scriptRoot scriptConfig none [scriptPath "a.js", scriptPath "b.js"]).run.run
        (.ofGraph twoScripts, obstructedHost e) = (.error f, (t', h')) ∧
      Obstructs scriptConfig (obstructedHost e) (scriptPath "a.js") ∧
      ¬ Obstructs scriptConfig (obstructedHost e) (scriptPath "b.js") ∧
      t' ≠ .ofGraph twoScripts ∧ twoScripts.nodes.length = 4 ∧ t'.graph.nodes = [] := by
  have hblocked : ∀ e ∈ [Entry.dir [], .closed (.file 9)],
      (obstructedHost e).files.holds (scriptPath "a.js") = true ∧
      (obstructedHost e).files.content? (scriptPath "a.js") = none ∧
      (obstructedHost e).files.content? (scriptPath "b.js") ≠ none ∧
      ∀ p ∈ [scriptPath "a.js", scriptPath "b.js"], (obstructedHost e).files.fault? p = none := by
    decide +kernel
  have hscripts : languageOf? (scriptPath "a.js") = some .javascript ∧
      (Tracked.ofGraph twoScripts).owners.get? "b.js" ≠ none ∧ twoScripts.nodes.length = 4 ∧
      ((Tracked.ofGraph twoScripts).drop ["a.js", "b.js"]).graph.nodes.length = 0 := by
    decide +kernel
  obtain ⟨hlanguage, howner, hlength, hleft⟩ := hscripts
  intro e he
  obtain ⟨hholds, hnoFile, hfile, hseen⟩ := hblocked e he
  have hfiles :
      filesBelow scriptRoot (obstructedHost e).files [scriptPath "a.js", scriptPath "b.js"] =
      .ok ["a.js", "b.js"] := filesBelow_eq_ok_iff.2 ⟨rfl, hseen⟩
  have hobstructs : Obstructs scriptConfig (obstructedHost e) (scriptPath "a.js") :=
    ⟨hholds, hnoFile, .javascript, hlanguage, List.mem_singleton.2 rfl⟩
  obtain ⟨hfails, hleaves⟩ := failed_update_keeps_iff scriptRoot scriptConfig none
    [scriptPath "a.js", scriptPath "b.js"] (.ofGraph twoScripts) (obstructedHost e)
  obtain ⟨f, ⟨t', h'⟩, hrun⟩ := hfails.2 (.inr (.inr ⟨_, List.mem_cons_self, hobstructs⟩))
  obtain ⟨-, hdrop, hkeeps⟩ := hleaves f t' h' hrun
  have hin : ¬ Refused scriptRoot (obstructedHost e).files [scriptPath "a.js", scriptPath "b.js"] :=
    exists_filesBelow_iff.1 ⟨_, hfiles⟩
  refine ⟨f, t', h', hrun, hobstructs, fun hb => hfile hb.noFile, ?_, hlength, ?_⟩
  · rw [Ne, hkeeps, not_or]
    exact ⟨hin, fun hunknown => howner (hunknown (scriptPath "b.js") (by simp) "b.js" rfl)⟩
  · obtain ⟨files, hfiles', rfl⟩ := hdrop hin
    obtain rfl : ["a.js", "b.js"] = files := Except.ok.inj (hfiles.symm.trans hfiles')
    exact List.eq_nil_of_length_eq_zero hleft

end CodeAtlas.Index
