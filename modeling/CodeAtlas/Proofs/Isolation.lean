import CodeAtlas.Proofs.Removal
import CodeAtlas.Proofs.WillingStore

/-!
# Files that cannot be read

A file can be bad in two ways. Where its extraction fails, the others are not disturbed. Where it
cannot be looked at or read, there is no index at all: files are read outside of what catches the
errors.
-/

namespace CodeAtlas.Index

open List
open Extract (Emission)

variable {config : Config} {catalog? : Option Vector.Catalog} {store : Bool} {h : Host}
  {root : Path} {r : Readers} {entries : List FileEntry} {x y : FileEntry} {found : List Stop}

/-! ## The files of a project, read one by one

Reading stops at a file that cannot be read, and goes on after one whose extraction fails. -/

def shownName (root : Path) (x : FileEntry) : String :=
  ((x.path.relativeTo? root).getD x.path).toText

def extraction (h : Host) (root : Path) (x : FileEntry) : Except Failure Emission :=
  match x.language with
  | some l => symbolsIn l (shownName root x) (h.grammar.parse l ((h.files.content? x.path).getD ""))
  | none => .ok {}

def graphFrom (h : Host) (root : Path) (entries : List FileEntry) : Graph :=
  let found := entries.filterMap fun x => (extraction h root x).toOption
  ⟨found.flatMap (·.nodes), found.flatMap (·.edges)⟩

def errorFor? (h : Host) (root : Path) (x : FileEntry) : Option String :=
  match extraction h root x with
  | .ok _ => none
  | .error f => some (shownName root x ++ ": " ++ f.message)

variable {files files' : Files} {children : List (String × Entry)}

theorem eligible_eq_ok_iff : eligible config files = .ok (root, r, found) ↔
    root = files.resolve (Path.ofText config.project.root) ∧
      Readers.ofNames config.parsing.languages = .ok r ∧
      ∃ rules, Ignore.Rules.load files root config.ignore = .ok rules ∧
        found = stops ⟨rules, config.parsing.maxFileSizeKb, some config.parsing.languages⟩ files
          root := by
  simp only [eligible]
  cases hrules : Ignore.Rules.load files (files.resolve (Path.ofText config.project.root))
    config.ignore with
  | error f =>
    simp only [bind, Except.bind, reduceCtorEq, false_iff]
    rintro ⟨rfl, -, rules, hload, -⟩
    cases hrules.symm.trans hload
  | ok rules =>
    cases hreaders : Readers.ofNames config.parsing.languages with
    | error f => simp [bind, Except.bind]
    | ok readers =>
      simp only [bind, Except.bind, pure, Except.pure, Except.ok.injEq, Prod.mk.injEq]
      constructor
      · rintro ⟨rfl, rfl, rfl⟩
        exact ⟨rfl, rfl, rules, hrules, rfl⟩
      · rintro ⟨rfl, rfl, rules', hload, rfl⟩
        rw [hrules, Except.ok.injEq] at hload
        exact ⟨rfl, rfl, by rw [hload]⟩

/-- A stop that is no file that can be read. -/
def Blocks (h : Host) (s : Stop) : Prop :=
  ∀ x, s = .ok x → h.files.content? x.path = none

section Eligible

variable (heligible : eligible config h.files = .ok (root, r, found))

include heligible

theorem languageOf?_of_mem (hx : .ok x ∈ found) :
    ∃ l, x.language = some l ∧ r.languageOf? x.path = some l := by
  obtain ⟨-, hr, rules, -, rfl⟩ := eligible_eq_ok_iff.1 heligible
  have hx : x ∈ walkProject ⟨rules, config.parsing.maxFileSizeKb, some config.parsing.languages⟩
      h.files root :=
    mem_filterMap.2 ⟨.ok x, hx, rfl⟩
  obtain ⟨-, hlanguage, -⟩ := file?_eq_some (file?_of_mem_walkProject hx)
  obtain ⟨l, hl, hname⟩ := language_of_mem_walkProject rfl hx
  exact ⟨l, hlanguage.trans hl, (languageOf?_eq_some_iff hr).2 ⟨hl, hname⟩⟩

theorem readEntry_of_mem (hx : .ok x ∈ found) (hcontent : h.files.content? x.path ≠ none) :
    readEntry r h root x = .ok (some (shownName root x, extraction h root x)) := by
  obtain ⟨l, hlanguage, hread⟩ := languageOf?_of_mem heligible hx
  obtain ⟨content, hcontent⟩ := Option.ne_none_iff_exists'.1 hcontent
  rw [readEntry, parseFile_of_content? hread hcontent, extraction, hlanguage, hcontent]
  rfl

theorem readEntry_eq_error (hx : .ok x ∈ found) (hcontent : h.files.content? x.path = none) :
    readEntry r h root x = .error (h.files.unreadable x.path) := by
  obtain ⟨l, -, hread⟩ := languageOf?_of_mem heligible hx
  rw [readEntry, parseFile_of_content?_eq_none hread hcontent]
  rfl

theorem readProject_of_eligible :
    readProject config h = Except.map (root, ·)
      (found.mapM fun s => s.bind (readEntry r h root)) := by
  rw [readProject, heligible]
  show (found.mapM (fun s => s.bind (readEntry r h root)) >>= fun o => .ok (root, o)) = _
  cases found.mapM (fun s => s.bind (readEntry r h root)) <;> rfl

/-- Reading a project fails at a stop that is no file that can be read. -/
theorem exists_error_readProject_iff :
    (∃ f, readProject config h = .error f) ↔ ∃ s ∈ found, Blocks h s := by
  have hstop : ∀ s ∈ found, (∃ o, s.bind (readEntry r h root) = .ok o) ↔ ¬ Blocks h s := by
    intro s hs
    cases s with
    | error f => simp [Except.bind, Blocks]
    | ok x =>
      have hblocks : Blocks h (.ok x) ↔ h.files.content? x.path = none := by simp [Blocks]
      rw [hblocks, Except.bind]
      by_cases hcontent : h.files.content? x.path = none
      · simp [readEntry_eq_error heligible hs hcontent, hcontent]
      · simp [readEntry_of_mem heligible hs hcontent, hcontent]
  have hread : (∃ o, found.mapM (fun s => s.bind (readEntry r h root)) = .ok o) ↔ ¬ ∃ s ∈ found,
      Blocks h s := by
    rw [exists_mapM_eq_ok_iff]
    push Not
    exact forall₂_congr hstop
  rw [readProject_of_eligible heligible, ← not_iff_not, ← hread]
  cases found.mapM (fun s => s.bind (readEntry r h root)) <;> simp [Except.map]

end Eligible

/-- Otherwise reading a project comes down to the extractions of the files that a walk finds, each
of which succeeds or fails as a whole. -/
theorem readProject_eq (heligible : eligible config h.files = .ok (root, r, entries.map .ok))
    (hcontent : ∀ x ∈ entries, h.files.content? x.path ≠ none) :
    readProject config h = .ok
      (root, entries.map fun x => some (shownName root x, extraction h root x)) := by
  have hread : (entries.map .ok).mapM (fun s : Stop => s.bind (readEntry r h root)) =
      .ok (entries.map fun x => some (shownName root x, extraction h root x)) := by
    rw [mapM_eq_ok_iff, map_map, map_map]
    exact map_congr_left fun x hx => readEntry_of_mem heligible (mem_map_of_mem hx) (hcontent x hx)
  rw [readProject_of_eligible heligible, hread]
  rfl

theorem graphOf_eq_graphFrom (h : Host) (root : Path) (entries : List FileEntry) :
    graphOf (entries.map fun x => some (shownName root x, extraction h root x)) =
      graphFrom h root entries := by
  rw [graphOf, graphFrom, filterMap_map]
  rfl

theorem countP_add_countP_not {α : Type} (p : α → Bool) (xs : List α) :
    xs.countP p + xs.countP (fun x => !p x) = xs.length := by
  rw [length_eq_countP_add_countP p]
  exact congrArg _ (countP_congr fun x _ => by simp)

theorem reportOf_eq (h : Host) (root : Path) (entries : List FileEntry) :
    reportOf (entries.map fun x => some (shownName root x, extraction h root x)) =
      { filesProcessed := entries.countP fun x => (extraction h root x).toBool
        filesSkipped := entries.countP fun x => !(extraction h root x).toBool
        nodesExtracted := (graphFrom h root entries).nodes.length
        edgesExtracted := (graphFrom h root entries).edges.length
        errors := entries.filterMap (errorFor? h root) } := by
  have hskipped : entries.length - (entries.countP fun x => (extraction h root x).toBool) =
      entries.countP fun x => !(extraction h root x).toBool := by
    rw [← countP_add_countP_not fun x => (extraction h root x).toBool, Nat.add_sub_cancel_left]
  rw [reportOf, graphOf_eq_graphFrom, filterMap_map]
  simp only [length_map, countP_map, Function.comp_def, Option.any_some, hskipped, Report.mk.injEq,
    true_and]
  refine filterMap_congr fun x _ => ?_
  rw [errorFor?]
  cases extraction h root x <;> rfl

/-- The vector store is there and refuses nothing. -/
def StoreWilling (h : Host) : Prop :=
  ∃ s, h.vectors = some s ∧ s.Willing

def keptCount (store : Bool) (g : Graph) : Nat :=
  if store then g.nodes.countP fun n => !n.isComment else 0

theorem build_run (catalog? : Option Vector.Catalog) {outcomes : List (Option FileOutcome)}
    (hread : readProject config h = .ok (root, outcomes)) (hstore : store → StoreWilling h) :
    ∃ h', (build config catalog? ⟨store, false⟩).run.run h =
      (.ok ⟨{ reportOf outcomes with nodesIndexed := keptCount store (graphOf outcomes) },
        graphOf outcomes, []⟩, h') := by
  have hproject :
      (liftM (readProject config h) : HostM _).run.run h = (.ok (root, outcomes), h) := by
    rw [run_except, hread]
  rw [build, run_bind_ok (run_get h), run_bind_ok hproject]
  dsimp only
  split
  · next hempty =>
    -- where there are no symbols, none are kept
    have hcount : keptCount store (graphOf outcomes) = 0 := by
      rw [keptCount, List.isEmpty_iff.1 hempty]
      cases store <;> rfl
    exact ⟨h, by rw [hcount]; rfl⟩
  · cases store with
    | false => exact ⟨h, rfl⟩
    | true =>
      obtain ⟨s, hs, hwilling⟩ := hstore rfl
      obtain ⟨-, s', hkeep, -⟩ :=
        run_keepSymbols hs hwilling (catalogOf config catalog?) (graphOf outcomes).nodes
      refine ⟨{ h with vectors := some s' }, ?_⟩
      rw [run_bind_ok (run_catalogFor hs config catalog?), run_bind_ok hkeep]
      rfl

theorem build_of_eligible (catalog? : Option Vector.Catalog) (store : Bool)
    (heligible : eligible config h.files = .ok (root, r, entries.map .ok))
    (hcontent : ∀ x ∈ entries, h.files.content? x.path ≠ none) (hstore : store → StoreWilling h) :
    ∃ b h', (build config catalog? ⟨store, false⟩).run.run h = (.ok b, h') ∧
      b.graph = graphFrom h root entries ∧ b.report =
        { filesProcessed := entries.countP fun x => (extraction h root x).toBool
          filesSkipped := entries.countP fun x => !(extraction h root x).toBool
          nodesExtracted := b.graph.nodes.length
          edgesExtracted := b.graph.edges.length
          nodesIndexed := keptCount store b.graph
          errors := entries.filterMap (errorFor? h root) } := by
  obtain ⟨h', hrun⟩ := build_run catalog? (readProject_eq heligible hcontent) hstore
  rw [graphOf_eq_graphFrom, reportOf_eq] at hrun
  exact ⟨_, h', hrun, rfl, rfl⟩

/-- Storing fails nowhere here, so indexing fails just where reading does. -/
theorem exists_error_build_iff (catalog? : Option Vector.Catalog) (store : Bool)
    (heligible : eligible config h.files = .ok (root, r, found)) (hstore : store → StoreWilling h) :
    (∃ f, (build config catalog? ⟨store, false⟩).run.run h = (.error f, h)) ↔ ∃ s ∈ found,
      Blocks h s := by
  rw [← exists_error_readProject_iff heligible]
  cases hread : readProject config h with
  | error f =>
    refine iff_of_true ⟨f, ?_⟩ ⟨f, rfl⟩
    rw [build, run_bind_ok (run_get h), run_bind_error]
    rw [run_except, hread]
  | ok o =>
    obtain ⟨h', hrun⟩ := build_run catalog? hread hstore
    refine iff_of_false ?_ ?_
    · rintro ⟨f, hf⟩
      cases (Prod.mk.inj (hrun.symm.trans hf)).1
    · rintro ⟨f, hf⟩
      cases hf

/-! ## Removing a file

The files that are still there give what they gave. So the graph is the same without a file that
gives nothing, unless other files are lost with it. -/

def yield (h : Host) (root : Path) (x : FileEntry) : Emission :=
  (extraction h root x).toOption.getD {}

theorem graphFrom_eq (h : Host) (root : Path) (entries : List FileEntry) :
    graphFrom h root entries =
    ⟨entries.flatMap fun x => (yield h root x).nodes, entries.flatMap fun x =>
      (yield h root x).edges⟩ := by
  have hflat {α : Type} (f : Emission → List α) (hf : f {} = []) :
      (entries.filterMap fun x => (extraction h root x).toOption).flatMap f =
        entries.flatMap fun x => f (yield h root x) := by
    induction entries with
    | nil => rfl
    | cons x entries ih =>
      rw [filterMap_cons, flatMap_cons, yield]
      cases (extraction h root x).toOption with
      | none => rw [ih, Option.getD_none, hf, nil_append]
      | some e => rw [flatMap_cons, ih, Option.getD_some]
  rw [graphFrom, hflat (·.nodes) rfl, hflat (·.edges) rfl]

theorem flatMap_filter_eq_iff {α β : Type} {l : List α} {keep : α → Bool} {f : α → List β} :
    (l.filter keep).flatMap f = l.flatMap f ↔ ∀ x ∈ l, keep x = false → f x = [] := by
  have hle (l : List α) : ((l.filter keep).flatMap f).length ≤ (l.flatMap f).length :=
    (filter_sublist.flatMap f).length_le
  induction l with
  | nil => simp
  | cons x l ih =>
    -- what is left out makes the result shorter, unless it gives nothing
    rw [forall_mem_cons, flatMap_cons]
    refine Iff.trans ?_ (and_congr_right fun _ => ih)
    cases hx : keep x with
    | true => simp [filter_cons_of_pos hx]
    | false =>
      rw [filter_cons_of_neg (by simp [hx])]
      constructor
      · intro heq
        have hlength := congrArg List.length heq
        rw [length_append] at hlength
        have hnil : f x = [] := eq_nil_of_length_eq_zero (by have := hle l; omega)
        rw [hnil, nil_append] at heq
        exact ⟨fun _ => hnil, heq⟩
      · rintro ⟨hnil, heq⟩
        rw [hnil rfl, heq, nil_append]

theorem graphFrom_filter_eq_iff {keep : FileEntry → Bool} :
    graphFrom h root (entries.filter keep) = graphFrom h root entries ↔
      ∀ y ∈ entries, keep y = false → yield h root y = {} := by
  have hempty (e : Emission) : e = {} ↔ e.nodes = [] ∧ e.edges = [] := by
    obtain ⟨nodes, edges⟩ := e
    exact Extract.Emission.mk.injEq .. ▸ Iff.rfl
  rw [graphFrom_eq, graphFrom_eq, Graph.mk.injEq, flatMap_filter_eq_iff, flatMap_filter_eq_iff]
  simp only [hempty, ← forall_and]

/-- A file is taken out of a project, which still has its directory and its rules on what is
ignored. The names on the path of the file are not too long to be looked up. -/
structure Without (config : Config) (files : Files) (root : Path) (x : FileEntry) (files' : Files) :
    Prop where
  removed : Removed files x.path.parts files'
  tidy : files.root.Tidy ∧ files'.root.Tidy
  dir : ∃ children, files.root.at? root.parts = some (.dir children)
  resolved : files'.resolve (Path.ofText config.project.root) = root
  rules : Ignore.Rules.load files' root config.ignore = Ignore.Rules.load files root config.ignore
  short : ∀ name ∈ x.path.parts, name.utf8ByteSize ≤ Files.longestName

/-- The files that are still there are found again. Besides the file only links are lost. -/
theorem eligible_without (heligible : eligible config h.files = .ok (root, r, entries.map .ok))
    (hx : x ∈ entries) (hwithout : Without config h.files root x files') :
    eligible config files' =
      .ok (root, r, (entries.filter fun y => files'.holds y.path).map .ok) ∧
    ∀ y ∈ entries, y ≠ x → files'.holds y.path = false →
      ∃ target, h.files.root.at? y.path.parts = some (.link target) := by
  obtain ⟨hroot, hr, rules, hload, hstops⟩ := eligible_eq_ok_iff.1 heligible
  obtain ⟨hremoved, ⟨htidy, htidy'⟩, ⟨l, hdir⟩, hresolved, hrules, hshort⟩ := hwithout
  obtain ⟨l', hdir'⟩ := (hremoved.dirs _).2 ⟨l, hdir⟩
  have habsolute : root = ⟨true, root.parts⟩ := by rw [hroot]; rfl
  rw [habsolute] at hstops
  have hwalk := eq_walkProject_of_walk (walk_eq_ok_iff.2 hstops.symm)
  refine ⟨eligible_eq_ok_iff.2 ⟨hresolved.symm, hr, rules, hrules.trans hload, ?_⟩,
    fun y hy => hremoved.exists_link_of_lost htidy hdir (hwalk ▸ hx) (hwalk ▸ hy)⟩
  rw [habsolute, hremoved.stops_eq htidy hdir hdir' htidy' hshort hstops.symm]

/-- Without a file that gives nothing the graph is the same if and only if the files that are lost
with it give nothing either. -/
theorem graphFrom_kept_eq_iff (hsame : ∀ y : FileEntry, files'.holds y.path →
      files'.content? y.path = h.files.content? y.path)
    (hfails : (extraction h root x).toBool = false) :
    graphFrom { h with files := files' } root (entries.filter fun y => files'.holds y.path) =
        graphFrom h root entries ↔
      ∀ y ∈ entries, y ≠ x → files'.holds y.path = false → yield h root y = {} := by
  have hkept : graphFrom { h with files := files' } root
      (entries.filter fun y => files'.holds y.path) =
      graphFrom h root (entries.filter fun y => files'.holds y.path) := by
    rw [graphFrom, graphFrom, filterMap_congr fun y hy => ?_]
    rw [extraction, extraction, hsame y (mem_filter.1 hy).2]
  have hyield : yield h root x = {} := by
    rw [yield]
    cases hextract : extraction h root x with
    | error f => rfl
    | ok e => rw [hextract] at hfails; cases hfails
  rw [hkept, graphFrom_filter_eq_iff]
  refine forall₂_congr fun y _ => ⟨fun hall _ => hall, fun hall hgone => ?_⟩
  by_cases hyx : y = x
  · rw [hyx, hyield]
  · exact hall hyx hgone

/-- **A file whose extraction fails does not disturb the others; one that cannot be read does.**
Indexing fails, and leaves everything as it was, exactly if a walk through the project comes by
something that cannot be looked at or finds a file that cannot be read. Otherwise it returns what
the files give, in the order of the walk, and one error for each file whose extraction fails.
Without such a file the graph is the same if and only if the other files that are lost with it, all
of them links, give nothing. -/
theorem build_isolates (catalog? : Option Vector.Catalog) (store : Bool)
    (heligible : eligible config h.files = .ok (root, r, found))
    (hstore : store = true → StoreWilling h) :
    ((∃ f, (build config catalog? ⟨store, false⟩).run.run h = (.error f, h)) ↔
      ∃ s ∈ found, Blocks h s) ∧
    ∀ entries : List FileEntry, found = entries.map .ok →
      (∀ x ∈ entries, h.files.content? x.path ≠ none) →
      ∃ b h', (build config catalog? ⟨store, false⟩).run.run h = (.ok b, h') ∧
        b.graph = graphFrom h root entries ∧
        b.report =
          { filesProcessed := entries.countP fun x => (extraction h root x).toBool
            filesSkipped := entries.countP fun x => !(extraction h root x).toBool
            nodesExtracted := b.graph.nodes.length
            edgesExtracted := b.graph.edges.length
            nodesIndexed := keptCount store b.graph
            errors := entries.filterMap (errorFor? h root) } ∧
        b.report.filesProcessed + b.report.filesSkipped = entries.length ∧
        ∀ x ∈ entries, (extraction h root x).toBool = false → ∀ files',
          Without config h.files root x files' →
          ∃ b' h'', (build config catalog? ⟨store, false⟩).run.run { h with files := files' } =
              (.ok b', h'') ∧
            (b'.graph = b.graph ↔ ∀ y ∈ entries, y ≠ x → files'.holds y.path = false →
              yield h root y = {}) ∧
            ∀ y ∈ entries, y ≠ x → files'.holds y.path = false →
              ∃ target, h.files.root.at? y.path.parts = some (.link target) := by
  refine ⟨exists_error_build_iff catalog? store heligible hstore, ?_⟩
  rintro entries rfl hcontent
  obtain ⟨b, h', hrun, hgraph, hreport⟩ :=
    build_of_eligible catalog? store heligible hcontent hstore
  have hfiles : b.report.filesProcessed + b.report.filesSkipped = entries.length := by
    rw [hreport]
    exact countP_add_countP_not _ _
  refine ⟨b, h', hrun, hgraph, hreport, hfiles, fun x hx hfails files' hwithout => ?_⟩
  obtain ⟨heligible', hlinks⟩ := eligible_without heligible hx hwithout
  have hsame (y : FileEntry) : files'.holds y.path = true →
      files'.content? y.path = h.files.content? y.path :=
    hwithout.removed.content?_eq
  have hcontent' : ∀ y ∈ entries.filter (fun y => files'.holds y.path),
      files'.content? y.path ≠ none := by
    intro y hy
    obtain ⟨hy, hholds⟩ := mem_filter.1 hy
    rw [hsame y hholds]
    exact hcontent y hy
  obtain ⟨b', h'', hrun', hgraph', -⟩ := build_of_eligible catalog? store
    (h := { h with files := files' }) heligible' hcontent' hstore
  refine ⟨b', h'', hrun', ?_, hlinks⟩
  rw [hgraph, hgraph', graphFrom_kept_eq_iff hsame hfails]

/-! ### Two files

The extraction of the first file fails: its bytes are no text where a name should stand. The second
one is a file with a function, or it cannot be read. -/

deriving instance DecidableEq for FileEntry

def brokenText : String := "function f(){}é"

def soundText : String := "function f(){}"

def soundFunction : Source.Tree :=
  .node "function_declaration" 0 14
    [.node "identifier" 9 10 [], .node "formal_parameters" 10 12 [],
      .node "statement_block" 12 14 []]

def flatFiles (children : List (String × Entry)) : Files :=
  ⟨.dir [("p", .dir children)]⟩

def twoFilesHost (second : Entry) : Host where
  files := flatFiles [("a.py", .file brokenText), ("b.js", second)]
  grammar := ⟨[
    ((.python, brokenText), .node "module" 0 16 [.node "function_definition" 14 16
      [.node "identifier" 14 15 []]]),
    ((.javascript, soundText), .node "program" 0 14 [soundFunction])]⟩
  vectors := some .unranked

def twoFilesConfig : Config where
  project := { root := "/p" }
  parsing := { languages := ["python", "javascript"] }

def twoFilesRoot : Path := ⟨true, ["p"]⟩

def brokenFile : FileEntry := ⟨⟨true, ["p", "a.py"]⟩, some .python, 16⟩

def otherFile : FileEntry := ⟨⟨true, ["p", "b.js"]⟩, some .javascript, 14⟩

theorem walkWith_flat {α : Type} {visit : Path → Option α} {rules : Ignore.Rules} {p : Path}
    (hsorted : children.Pairwise fun a b => !decide (b.1 < a.1))
    (hflat : children.all fun c => !c.2.isDir) :
    walkWith visit rules files p (.dir children) = children.filterMap (visitAt? visit files p) := by
  have hbyName : byName children = children := mergeSort_of_pairwise hsorted
  have hbelow : children.flatMap (belowWith visit rules files p) = [] := by
    refine flatMap_eq_nil_iff.2 fun c hc => ?_
    have hc := all_eq_true.1 hflat c hc
    rw [Bool.not_eq_true'] at hc
    rw [belowWith, hc]
    rfl
  rw [walkWith_dir, hbyName, hbelow, append_nil]

/-- The stops of a walk through a directory without directories, for some rules on what is
ignored. -/
def flatStops (children : List (String × Entry)) (rules : Ignore.Rules) : List Stop :=
  let w : WalkFilter :=
    ⟨rules, twoFilesConfig.parsing.maxFileSizeKb, some twoFilesConfig.parsing.languages⟩
  children.filterMap (visitAt? (w.stop? (flatFiles children)) (flatFiles children) twoFilesRoot)

theorem eligible_flat (hsorted : children.Pairwise fun a b => !decide (b.1 < a.1))
    (hflat : children.all fun c => !c.2.isDir)
    (hfound : (Ignore.Rules.load (flatFiles children) twoFilesRoot
      twoFilesConfig.ignore).toOption.map (flatStops children) = some (entries.map .ok)) :
    eligible twoFilesConfig (flatFiles children) =
      .ok (twoFilesRoot, ⟨[.python, .javascript]⟩, entries.map .ok) := by
  obtain ⟨rules, hload, hfound⟩ := Option.map_eq_some_iff.1 hfound
  have hentry : Files.entry? (flatFiles children) ((flatFiles children).resolve twoFilesRoot) =
    some (.dir children) := rfl
  refine eligible_eq_ok_iff.2 ⟨rfl, rfl, rules, eq_ok_of_toOption hload, ?_⟩
  rw [stops_of_entry hentry, walkWith_flat hsorted hflat]
  exact hfound.symm

def soundHost : Host := twoFilesHost (.file soundText)

def closedHost : Host := twoFilesHost (.closed (.file 14))

theorem eligible_projects :
    eligible twoFilesConfig soundHost.files =
      .ok (twoFilesRoot, ⟨[.python, .javascript]⟩, [brokenFile, otherFile].map .ok) ∧
    eligible twoFilesConfig closedHost.files =
      .ok (twoFilesRoot, ⟨[.python, .javascript]⟩, [brokenFile, otherFile].map .ok) := by
  -- both projects at once, so that the ignore patterns are read only once
  have hfound : ∀ second ∈ [Entry.file soundText, .closed (.file 14)],
      (Ignore.Rules.load (twoFilesHost second).files twoFilesRoot
        twoFilesConfig.ignore).toOption.map
        (flatStops [("a.py", .file brokenText), ("b.js", second)]) =
        some ([brokenFile, otherFile].map .ok) := by
    decide +kernel
  simp only [forall_mem_cons] at hfound
  obtain ⟨hsound, hclosed, -⟩ := hfound
  exact ⟨eligible_flat (by decide) rfl hsound, eligible_flat (by decide) rfl hclosed⟩

theorem at?_flatFiles_iff {q : List String} {c : Entry}
    (hflat : ∀ d ∈ children, d.2.isDir = false) :
    (flatFiles children).root.at? q = some c ↔ q = [] ∧ c = .dir [("p", .dir children)] ∨
      q = ["p"] ∧ c = .dir children ∨ ∃ name, q = ["p", name] ∧ children.lookup name = some c := by
  rcases q with _ | ⟨a, q⟩
  · simp [Entry.at?, flatFiles, @eq_comm _ c]
  have ha : (flatFiles children).root.at? (a :: q) =
      if a = "p" then (Entry.dir children).at? q else none := by
    rw [flatFiles, Entry.at?, Entry.child?, Entry.lookup_cons_ite]
    split <;> rfl
  rw [ha]
  rcases q with _ | ⟨b, _ | ⟨n, q⟩⟩
  · simp [Entry.at?, @eq_comm _ c]
  · simp [Entry.at?, Entry.child?]
  · have hb : (Entry.dir children).at? (b :: n :: q) = none := by
      rw [Entry.at?, Option.bind_eq_none_iff]
      intro d hd
      have hd := hflat _ (Entry.mem_of_lookup hd)
      cases d <;> first | rfl | cases hd
    simp [hb]

theorem removed_flatFiles {name : String} {e : Entry} (he : e.isDir = false)
    (hnew : children.lookup name = none) (hflat : ∀ d ∈ children, d.2.isDir = false) :
    Removed (flatFiles ((name, e) :: children)) ["p", name] (flatFiles children) := by
  have hall : ∀ d ∈ (name, e) :: children, d.2.isDir = false := forall_mem_cons.2 ⟨he, hflat⟩
  constructor
  · intro q
    simp only [at?_flatFiles_iff hflat, at?_flatFiles_iff hall]
    constructor
    · rintro ⟨l, ⟨rfl, -⟩ | ⟨rfl, -⟩ | ⟨n, -, hn⟩⟩
      · exact ⟨_, .inl ⟨rfl, rfl⟩⟩
      · exact ⟨_, .inr (.inl ⟨rfl, rfl⟩)⟩
      · cases hflat _ (Entry.mem_of_lookup hn)
    · rintro ⟨l, ⟨rfl, -⟩ | ⟨rfl, -⟩ | ⟨n, -, hn⟩⟩
      · exact ⟨_, .inl ⟨rfl, rfl⟩⟩
      · exact ⟨_, .inr (.inl ⟨rfl, rfl⟩)⟩
      · cases hall _ (Entry.mem_of_lookup hn)
  · intro q c hc
    rw [at?_flatFiles_iff hflat, at?_flatFiles_iff hall]
    simp only [Entry.lookup_cons_ite]
    grind [Entry.isDir]

theorem without_brokenFile : Without twoFilesConfig soundHost.files twoFilesRoot brokenFile
    (soundHost.files.remove brokenFile.path) := by
  have hremoved : Removed soundHost.files ["p", "a.py"] (flatFiles [("b.js", .file soundText)]) :=
    removed_flatFiles rfl rfl (forall_mem_singleton.2 rfl)
  refine ⟨hremoved, ⟨Entry.tidy_of_allDirs (by decide), Entry.tidy_of_allDirs (by decide)⟩,
    ⟨_, rfl⟩, rfl, ?_, by decide⟩
  have htexts : ∀ files ∈ [soundHost.files, soundHost.files.remove brokenFile.path],
      files.resolve twoFilesRoot = twoFilesRoot ∧
      (Ignore.patternTexts files twoFilesRoot twoFilesConfig.ignore).toOption =
        some Ignore.defaults := by
    decide +kernel
  simp only [forall_mem_cons] at htexts
  obtain ⟨⟨hroot, htexts⟩, ⟨hroot', htexts'⟩, -⟩ := htexts
  simp only [Ignore.Rules.load, hroot, hroot', eq_ok_of_toOption htexts, eq_ok_of_toOption htexts']

/-- The second file is indexed as if the first one were not there. Where it cannot be read, nothing
is indexed. -/
theorem build_isolates_twoFiles :
    (∃ b h', (build twoFilesConfig none ⟨true, false⟩).run.run soundHost = (.ok b, h') ∧
      b.graph.nodes.map (·.name) = ["f"] ∧ b.report.filesProcessed = 1 ∧ b.report.filesSkipped = 1 ∧
      b.report.nodesIndexed = 1 ∧
      b.report.errors =
        ["a.py: 'utf-8' codec can't decode byte 0xc3 in position 0: unexpected end of data"] ∧
      ∃ b' h'', (build twoFilesConfig none ⟨true, false⟩).run.run
          { soundHost with files := soundHost.files.remove brokenFile.path } = (.ok b', h'') ∧
        b'.graph = b.graph) ∧
    ∃ f, (build twoFilesConfig none ⟨false, false⟩).run.run closedHost =
      (.error f, closedHost) := by
  have hvalues :
      (graphFrom soundHost twoFilesRoot [brokenFile, otherFile]).nodes.map (·.name) = ["f"] ∧
      keptCount true (graphFrom soundHost twoFilesRoot [brokenFile, otherFile]) = 1 ∧
      ([brokenFile, otherFile].countP fun x => (extraction soundHost twoFilesRoot x).toBool) = 1 ∧
      ([brokenFile, otherFile].countP fun x => !(extraction soundHost twoFilesRoot x).toBool) = 1 ∧
      [brokenFile, otherFile].filterMap (errorFor? soundHost twoFilesRoot) =
        ["a.py: 'utf-8' codec can't decode byte 0xc3 in position 0: unexpected end of data"] ∧
      (extraction soundHost twoFilesRoot brokenFile).toBool = false ∧
      ∀ x ∈ [brokenFile, otherFile], soundHost.files.content? x.path ≠ none := by
    decide +kernel
  obtain ⟨hnames, hindexed, hprocessed, hskipped, herrors, hfails, hcontent⟩ := hvalues
  obtain ⟨hsound, hclosed⟩ := eligible_projects
  constructor
  · obtain ⟨-, hindex⟩ := build_isolates none true hsound fun _ => ⟨.unranked, rfl, fun _ _ => rfl⟩
    obtain ⟨b, h', hrun, hgraph, hreport, -, hremove⟩ := hindex [brokenFile, otherFile] rfl hcontent
    obtain ⟨b', h'', hrun', hiff, -⟩ := hremove brokenFile mem_cons_self hfails _ without_brokenFile
    rw [hgraph] at hreport
    refine ⟨b, h', hrun, by rw [hgraph, hnames], by rw [hreport, hprocessed],
      by rw [hreport, hskipped], by rw [hreport, hindexed], by rw [hreport, herrors],
      b', h'', hrun', hiff.2 fun y hy hne hlost => ?_⟩
    rcases mem_pair.1 hy with rfl | rfl
    · exact absurd rfl hne
    · cases hlost
  · obtain ⟨hfails, -⟩ := build_isolates none false hclosed fun h => by cases h
    refine hfails.2 ⟨.ok otherFile, by simp, fun x hx => ?_⟩
    rw [← Except.ok.inj hx]
    rfl

end CodeAtlas.Index
