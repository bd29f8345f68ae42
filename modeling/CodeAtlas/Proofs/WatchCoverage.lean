import CodeAtlas.Index.Watch
import CodeAtlas.Proofs.Isolation

/-!
# What a watch misses of what a walk finds

Which files matter is said twice. A walk goes by the suffixes of the languages, with case ignored,
by the ignored directories on the way and by the size of a file. A watch has a list of suffixes of
its own, which it compares letter by letter, and looks at the path of a file only. The two agree on
what is ignored (`ignores_of_mem_walkProject`), but not on suffixes (`mem_watchedSuffixes_iff`).
-/

namespace CodeAtlas.Index

variable {w : WalkFilter} {files : Files} {root : Path} {x : FileEntry} {names : List String}

theorem ignores_of_mem_walkProject (hx : x ∈ walkProject w files root) :
    w.rules.ignores files x.path = false := by
  obtain ⟨-, -, hignores, -⟩ := file?_eq_some_iff.1 (file?_of_mem_walkProject hx)
  exact hignores

theorem relativeTo?_of_mem_walkProject (htidy : files.root.Tidy) (hroot : files.resolve root = root)
    (hx : x ∈ walkProject w files root) : (x.path.relativeTo? root).isSome := by
  cases hentry : files.entry? (files.resolve root) with
  | none =>
    rw [walkProject_of_no_entry hentry] at hx
    cases hx
  | some e =>
    rw [walkProject_of_entry hentry, hroot] at hx
    obtain ⟨r, -, hat⟩ := Files.entry?_eq_some_iff.1 hentry
    obtain ⟨names, -, hpath⟩ := exists_foundIn_of_mem_walkEntry (htidy.at? hat) hx
    rw [hpath]
    simp [Path.relativeTo?]

/-! ## Two lists of suffixes

The languages have suffixes of their own, of which a watch knows only some. -/

theorem mem_watchedSuffixes_of_ofSuffix? {s : String} {l : Language}
    (hl : Language.ofSuffix? s = some l)
    (hstub : s ≠ ".pyi") (hsharp : s ≠ ".cs") : s ∈ watchedSuffixes := by
  have htable :
      ∀ l ∈ Language.all, ∀ s ∈ l.suffixes, s = ".pyi" ∨ s = ".cs" ∨ s ∈ watchedSuffixes := by
    decide
  unfold Language.ofSuffix? at hl
  have hs := List.find?_some hl
  rw [List.contains_iff_mem] at hs
  rcases htable l (List.mem_of_find?_eq_some hl) s hs with h | h | h
  · exact absurd h hstub
  · exact absurd h hsharp
  · exact h

theorem mem_watchedSuffixes_iff {p : Path} {l : Language} (hl : languageOf? p = some l) :
    p.suffix ∈ watchedSuffixes ↔ Text.lower p.suffix = p.suffix ∧ p.suffix ≠ ".pyi" ∧
      p.suffix ≠ ".cs" := by
  have hlower : ∀ s ∈ watchedSuffixes, Text.lower s = s ∧ s ≠ ".pyi" ∧ s ≠ ".cs" := by
    decide +kernel
  constructor
  · exact hlower p.suffix
  · intro h
    -- a language goes by the suffix in lower case, which is the suffix itself here
    unfold languageOf? at hl
    rw [h.1] at hl
    exact mem_watchedSuffixes_of_ofSuffix? hl h.2.1 h.2.2

/-- **What a watch misses.** Take any ignore rules, any languages and any file that a walk finds for
these languages. An event that names the file is let through if and only if the file lies below the
watched directory, the suffix of the file is in lower case, and it is neither `.pyi` nor `.cs`. The
first holds of all of them where the directory is given by its real path. -/
theorem walked_isWatched_iff (hnames : w.languages = some names)
    (hx : x ∈ walkProject w files root) :
    (isWatched w.rules files root x.path = true ↔
      (x.path.relativeTo? root).isSome = true ∧
        Text.lower x.path.suffix = x.path.suffix ∧ x.path.suffix ≠ ".pyi" ∧ x.path.suffix ≠ ".cs") ∧
    (files.root.Tidy → files.resolve root = root → (x.path.relativeTo? root).isSome = true) := by
  refine ⟨?_, fun htidy hroot => relativeTo?_of_mem_walkProject htidy hroot hx⟩
  obtain ⟨l, hl, -⟩ := language_of_mem_walkProject hnames hx
  unfold isWatched
  rw [ignores_of_mem_walkProject hx, ← mem_watchedSuffixes_iff hl]
  simp

/-! ### Three modules

A module, the declarations that belong to it, and a module whose suffix is in upper case. All of
them are found for the one language that is switched on, and of the first only a change is heard. -/

def moduleRoot : Path := ⟨true, ["p"]⟩

def moduleEntries : List (String × Entry) :=
  [("a.py", .file ""), ("a.pyi", .file ""), ("b.PY", .file "")]

def moduleFiles : Files := ⟨.dir [("p", .dir moduleEntries)]⟩

def moduleFilter : WalkFilter where
  rules := ⟨moduleRoot, []⟩
  languages := some ["python"]

def moduleFile (name : String) : FileEntry :=
  ⟨moduleRoot.child name, some .python, 0⟩

theorem walkProject_moduleFiles :
    walkProject moduleFilter moduleFiles moduleRoot = ["a.py", "a.pyi", "b.PY"].map moduleFile := by
  have hentry : moduleFiles.entry? (moduleFiles.resolve moduleRoot) = some (.dir moduleEntries) :=
    rfl
  rw [walkProject_of_entry hentry, walkEntry, walkWith_flat]
  · decide +kernel
  · decide
  · decide

theorem walked_isWatched_iff_module :
    walkProject moduleFilter moduleFiles moduleRoot = ["a.py", "a.pyi", "b.PY"].map moduleFile ∧
      isWatched moduleFilter.rules moduleFiles moduleRoot (moduleFile "a.py").path = true ∧
      isWatched moduleFilter.rules moduleFiles moduleRoot (moduleFile "a.pyi").path = false ∧
      isWatched moduleFilter.rules moduleFiles moduleRoot (moduleFile "b.PY").path = false := by
  have hsuffix :
      (moduleFile "a.py").path.suffix = ".py" ∧ (moduleFile "a.pyi").path.suffix = ".pyi" ∧
      (moduleFile "b.PY").path.suffix = ".PY" ∧ Text.lower ".py" = ".py" ∧
        Text.lower ".PY" ≠ ".PY" ∧
      ((moduleFile "a.py").path.relativeTo? moduleRoot).isSome = true := by
    decide +kernel
  obtain ⟨hmodule, hstub, hupper, hlower, hnotLower, hbelow⟩ := hsuffix
  have hfound {name : String} (hname : name ∈ ["a.py", "a.pyi", "b.PY"]) :
      moduleFile name ∈ walkProject moduleFilter moduleFiles moduleRoot := by
    rw [walkProject_moduleFiles]
    exact List.mem_map_of_mem hname
  refine ⟨walkProject_moduleFiles, ?_, ?_, ?_⟩
  · rw [(walked_isWatched_iff rfl (hfound (by simp))).1, hmodule]
    exact ⟨hbelow, hlower, by decide, by decide⟩
  · rw [← Bool.not_eq_true, (walked_isWatched_iff rfl (hfound (by simp))).1, hstub]
    exact fun h => h.2.2.1 rfl
  · rw [← Bool.not_eq_true, (walked_isWatched_iff rfl (hfound (by simp))).1, hupper]
    exact fun h => hnotLower h.2.1

end CodeAtlas.Index
