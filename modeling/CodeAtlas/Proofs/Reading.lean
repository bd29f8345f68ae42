import CodeAtlas.Index.Build
import CodeAtlas.Proofs.Closure
import CodeAtlas.Proofs.Files
import CodeAtlas.Proofs.Leading
import CodeAtlas.Proofs.Paths

/-!
# What reading some files gives

Reading a list of files is reading them one by one: it fails where one of them does, and otherwise
the graph is what they give, one after the other. Every node stands in the file that gave it, and
what a file gives depends on its own entry only.
-/

namespace CodeAtlas.Index

open List
open Extract (Emission)
open Readers (ofNames parseFile)

variable {ε α β : Type} {f : α → Except ε β} {xs : List α} {l : Language} {names : List String}

theorem eq_ok_of_toOption {x : Except ε α} {a : α} (hx : x.toOption = some a) : x = .ok a := by
  cases x with
  | error e => cases hx
  | ok b => rw [Option.some.inj hx]

theorem mapM_eq_ok_iff {ys : List β} : xs.mapM f = .ok ys ↔ xs.map f = ys.map .ok := by
  induction xs generalizing ys with
  | nil => cases ys <;> simp [pure, Except.pure]
  | cons x xs ih =>
    rw [mapM_cons, map_cons]
    cases hx : f x with
    | error e => cases ys <;> simp [bind, Except.bind]
    | ok y =>
      cases hxs : xs.mapM f with
      | error e =>
        -- the first reading succeeds and a later one fails, so no results can be all of them
        cases ys with
        | nil => simp [bind, Except.bind]
        | cons z zs =>
          have hne : xs.map f ≠ zs.map .ok := fun h => by cases hxs.symm.trans (ih.2 h)
          simp [bind, Except.bind, hne]
      | ok rest =>
        cases ys with
        | nil => simp [bind, Except.bind, pure, Except.pure]
        | cons z zs =>
          have hrest : xs.map f = zs.map .ok ↔ rest = zs := by
            rw [← ih, hxs, Except.ok.injEq]
          simp [bind, Except.bind, pure, Except.pure, hrest]

theorem exists_mem_of_mapM_eq_ok {ys : List β} (hys : xs.mapM f = .ok ys) {x : α} (hx : x ∈ xs) :
    ∃ y ∈ ys, f x = .ok y := by
  have hmem : f x ∈ ys.map .ok := mapM_eq_ok_iff.1 hys ▸ mem_map_of_mem hx
  obtain ⟨y, hy, heq⟩ := mem_map.1 hmem
  exact ⟨y, hy, heq.symm⟩

theorem exists_of_mem_mapM_eq_ok {ys : List β} (hys : xs.mapM f = .ok ys) {y : β} (hy : y ∈ ys) :
    ∃ x ∈ xs, f x = .ok y := by
  have hmem : .ok y ∈ xs.map f := mapM_eq_ok_iff.1 hys ▸ mem_map_of_mem hy
  exact mem_map.1 hmem

theorem exists_mapM_eq_ok_iff : (∃ ys, xs.mapM f = .ok ys) ↔ ∀ x ∈ xs, ∃ y, f x = .ok y := by
  constructor
  · rintro ⟨ys, hys⟩ x hx
    obtain ⟨y, -, hy⟩ := exists_mem_of_mapM_eq_ok hys hx
    exact ⟨y, hy⟩
  · intro hall
    simp only [mapM_eq_ok_iff]
    induction xs with
    | nil => exact ⟨[], rfl⟩
    | cons x xs ih =>
      obtain ⟨y, hy⟩ := hall x mem_cons_self
      obtain ⟨ys, hys⟩ := ih fun z hz => hall z (mem_cons_of_mem x hz)
      exact ⟨y :: ys, by rw [map_cons, hy, hys, map_cons]⟩

def knownLanguage (n : String) : Except Failure Language :=
  match Language.ofName? n with
  | some l => .ok l
  | none => .error (Failure.unknownLanguage n (Language.all.map (·.name)))

theorem knownLanguage_eq_ok_iff {n : String} : knownLanguage n = .ok l ↔ l.name = n := by
  unfold knownLanguage
  constructor
  · intro hl
    split at hl
    · next l' hl' =>
      obtain rfl := Except.ok.inj hl
      have hname := find?_some hl'
      exact beq_iff_eq.1 hname
    · cases hl
  · rintro rfl
    rw [Language.ofName?_name]

theorem ofNames_eq_ok_iff {r : Readers} :
    ofNames names = .ok r ↔ ∃ languages, names.mapM knownLanguage = .ok languages ∧
      r = ⟨distinct languages⟩ := by
  show (names.mapM knownLanguage >>= fun languages => .ok ⟨distinct languages⟩) = .ok r ↔ _
  cases names.mapM knownLanguage with
  | error f => simp [bind, Except.bind]
  | ok languages => simp [bind, Except.bind, eq_comm]

theorem exists_ofNames_iff :
    (∃ r, ofNames names = .ok r) ↔ ∀ n ∈ names, ∃ l : Language, l.name = n := by
  simp only [ofNames_eq_ok_iff, ← knownLanguage_eq_ok_iff, ← exists_mapM_eq_ok_iff]
  constructor
  · rintro ⟨r, languages, hread, -⟩
    exact ⟨languages, hread⟩
  · rintro ⟨languages, hread⟩
    exact ⟨_, languages, hread, rfl⟩

theorem mem_languages_iff {r : Readers} (hr : ofNames names = .ok r) :
    l ∈ r.languages ↔ l.name ∈ names := by
  obtain ⟨languages, hread, rfl⟩ := ofNames_eq_ok_iff.1 hr
  show l ∈ distinct languages ↔ _
  have hmem : l ∈ languages ↔ .ok l ∈ names.map knownLanguage := by
    rw [mapM_eq_ok_iff.1 hread]
    simp
  rw [mem_distinct, hmem, mem_map]
  simp only [knownLanguage_eq_ok_iff, exists_eq_right']

theorem languageOf?_eq_some_iff {r : Readers} (hr : ofNames names = .ok r) {p : Path} :
    r.languageOf? p = some l ↔ languageOf? p = some l ∧ l.name ∈ names := by
  unfold Readers.languageOf?
  rw [Option.filter_eq_some_iff, contains_iff_mem, mem_languages_iff hr]

/-! ## Files, one after the other

What a file gives depends on its content alone, so a list of files may be cut and put together. -/

def emissionOf : Except Failure (Option FileOutcome) → Emission
  | .ok (some (_, .ok e)) => e
  | _ => {}

def emissionAt (r : Readers) (h : Host) (root p : Path) : Emission :=
  emissionOf (readPath r h root p)

def graphAt (r : Readers) (h : Host) (root : Path) (paths : List Path) : Graph :=
  ⟨paths.flatMap fun p => (emissionAt r h root p).nodes,
    paths.flatMap fun p => (emissionAt r h root p).edges⟩

variable {r : Readers} {h : Host} {config : Config} {root p : Path} {paths : List Path}

theorem graphOf_eq (outcomes : List (Option FileOutcome)) :
    graphOf outcomes = ⟨(outcomes.map .ok).flatMap fun o => (emissionOf o).nodes,
      (outcomes.map .ok).flatMap fun o => (emissionOf o).edges⟩ := by
  induction outcomes with
  | nil => rfl
  | cons o rest ih =>
    rw [graphOf] at ih ⊢
    rw [Graph.mk.injEq] at ih ⊢
    rcases o with _ | ⟨file, _ | e⟩ <;>
      simp_all [emissionOf, Except.toOption]

theorem parseFile_of_content? {content : String} (hl : r.languageOf? p = some l)
    (hcontent : h.files.content? p = some content) :
    r.parseFile h.grammar h.files p = .ok (some (h.grammar.parse l content, l)) := by
  rw [parseFile, hl]
  simp only [Files.readContent, hcontent]
  rfl

theorem parseFile_of_content?_eq_none (hl : r.languageOf? p = some l)
    (hcontent : h.files.content? p = none) :
    r.parseFile h.grammar h.files p = .error (h.files.unreadable p) := by
  rw [parseFile, hl]
  simp only [Files.readContent, hcontent]
  rfl

/-- What a file gives depends on its own content. -/
theorem emissionAt_congr {h' : Host} (hgrammar : h'.grammar = h.grammar)
    (hcontent : h'.files.content? p = h.files.content? p) :
    emissionAt r h' root p = emissionAt r h root p := by
  rw [emissionAt, emissionAt, readPath, readPath]
  cases hl : r.languageOf? p with
  | none => rw [parseFile, parseFile, hl]
  | some l =>
    cases hc : h.files.content? p with
    | none =>
      rw [parseFile_of_content?_eq_none hl hc, parseFile_of_content?_eq_none hl (hcontent.trans hc)]
      rfl
    | some content =>
      rw [parseFile_of_content? hl hc, parseFile_of_content? hl (hcontent.trans hc), hgrammar]

theorem exists_readPath_iff :
    (∃ o, readPath r h root p = .ok o) ↔ r.languageOf? p = none ∨ h.files.content? p ≠ none := by
  rw [readPath]
  cases hl : r.languageOf? p with
  | none => simp [parseFile, hl, bind, Except.bind, pure, Except.pure]
  | some l =>
    cases hcontent : h.files.content? p with
    | none => simp [parseFile_of_content?_eq_none hl hcontent, bind, Except.bind]
    | some content =>
      rw [parseFile_of_content? hl hcontent]
      cases p.relativeTo? root <;> simp [bind, Except.bind, pure, Except.pure]

theorem emissionAt_of_content?_eq_none (hp : h.files.content? p = none) :
    emissionAt r h root p = {} := by
  rw [emissionAt, readPath]
  cases hl : r.languageOf? p with
  | none =>
    rw [parseFile, hl]
    rfl
  | some l =>
    rw [parseFile_of_content?_eq_none hl hp]
    rfl

/-- A file gives nothing unless it is of a language that is read, lies below the root, and is well
formed; it then gives what the extractor of its language returns. -/
theorem emissionAt_cases (r : Readers) (h : Host) (root p : Path) :
    emissionAt r h root p = {} ∨ ∃ (l : Language) (file : Path) (parsed : Source.Parsed),
      p.relativeTo? root = some file ∧ l.extract file.toText parsed = .ok
        (emissionAt r h root p) := by
  rw [emissionAt, readPath]
  rcases r.parseFile h.grammar h.files p with f | _ | ⟨parsed, l⟩
  · exact .inl rfl
  · exact .inl rfl
  · cases hrel : p.relativeTo? root with
    | none => exact .inl rfl
    | some file =>
      simp only [bind, Except.bind, symbolsIn]
      cases he : l.extract file.toText parsed with
      | error fault => exact .inl rfl
      | ok e => exact .inr ⟨l, file, parsed, rfl, he⟩

theorem file_of_mem_emissionAt {n : Node} (hn : n ∈ (emissionAt r h root p).nodes) :
    ∃ file, p.relativeTo? root = some file ∧ n.loc.file = file.toText := by
  rcases emissionAt_cases r h root p with hnone | ⟨l, file, parsed, hrel, he⟩
  · rw [hnone] at hn
    cases hn
  · exact ⟨file, hrel, ((l.grounded_extract file.toText parsed _ he).placed n hn).file⟩

/-- A file can be looked at, and if it is there it can be read, or is none of a language that is
switched on. -/
def Readable (r : Readers) (h : Host) (root p : Path) : Prop :=
  h.files.fault? p = none ∧ (h.files.holds p → ∃ o, readPath r h root p = .ok o)

theorem readPresent_eq (r : Readers) (h : Host) (root p : Path) : readPresent r h root p =
    match h.files.fault? p with
    | some f => .error f
    | none => if h.files.holds p then readPath r h root p else .ok none := by
  rw [readPresent, Files.has, Files.look]
  cases h.files.fault? p <;> rfl

theorem exists_readPresent_iff : (∃ o, readPresent r h root p = .ok o) ↔ Readable r h root p := by
  rw [readPresent_eq, Readable]
  cases h.files.fault? p <;> cases h.files.holds p <;> simp

theorem emissionOf_readPresent (r : Readers) (h : Host) (root p : Path) :
    emissionOf (readPresent r h root p) = emissionAt r h root p := by
  rw [readPresent_eq]
  cases hfault : h.files.fault? p with
  | some f =>
    refine (emissionAt_of_content?_eq_none (Option.eq_none_iff_forall_ne_some.2 fun content
      hcontent => ?_)).symm
    cases hfault.symm.trans (Files.fault?_of_size? (Files.size?_of_content? hcontent))
  | none =>
    cases hholds : h.files.holds p with
    | true => rfl
    | false =>
      exact (emissionAt_of_content?_eq_none (Files.content?_of_not_holds (by simp [hholds]))).symm

theorem flatMap_filter_holds {f : Emission → List α} (hf : f {} = []) :
    ((paths.filter h.files.holds).flatMap fun p => f (emissionAt r h root p)) =
      paths.flatMap fun p => f (emissionAt r h root p) := by
  induction paths with
  | nil => rfl
  | cons p rest ih =>
    by_cases hp : h.files.holds p
    · rw [filter_cons_of_pos hp, flatMap_cons, flatMap_cons, ih]
    · have hnone : h.files.content? p = none := Files.content?_of_not_holds hp
      rw [filter_cons_of_neg hp, flatMap_cons, emissionAt_of_content?_eq_none hnone, hf, ih,
        nil_append]

theorem graphOf_eq_graphAt {outcomes : List (Option FileOutcome)}
    (hread : paths.mapM (readPresent r h root) = .ok outcomes) :
    graphOf outcomes = graphAt r h root paths := by
  rw [graphOf_eq, ← mapM_eq_ok_iff.1 hread, graphAt, flatMap_map, flatMap_map]
  simp only [emissionOf_readPresent]

/-- **Reading files is reading each of them.** It succeeds where every file can be looked at and
those that are there can be read, and then gives what the files give. -/
theorem readFiles_eq_ok_iff (hr : ofNames config.parsing.languages = .ok r) {g : Graph} :
    (∃ errors, readFiles config h root paths = .ok (g, errors)) ↔
      (∀ p ∈ paths, Readable r h root p) ∧ g = graphAt r h root paths := by
  simp only [← exists_readPresent_iff, ← exists_mapM_eq_ok_iff]
  simp only [readFiles, hr, bind, Except.bind]
  cases hread : paths.mapM (readPresent r h root) with
  | error f => simp
  | ok outcomes =>
    rw [← graphOf_eq_graphAt hread]
    simp [pure, Except.pure, eq_comm]

theorem map_mapM_filter {f : α → Except ε (Option β)} {q : α → Bool}
    (hskip : ∀ x ∈ xs, ¬ q x → f x = .ok none) :
    ((xs.filter q).mapM f).map (·.filterMap id) = (xs.mapM f).map (·.filterMap id) := by
  induction xs with
  | nil => rfl
  | cons x xs ih =>
    have ih := ih fun y hy => hskip y (mem_cons_of_mem x hy)
    by_cases hx : q x
    · rw [filter_cons_of_pos hx, mapM_cons, mapM_cons]
      cases f x with
      | error e => rfl
      | ok y =>
        cases hleft : (xs.filter q).mapM f <;> cases hright : xs.mapM f <;>
          rw [hleft, hright] at ih <;> cases y <;>
          simp_all [Except.map, bind, Except.bind, pure, Except.pure]
    · rw [filter_cons_of_neg hx, mapM_cons, hskip x mem_cons_self hx, ih]
      cases xs.mapM f <;> rfl

/-- Files that are not there need not be named. -/
theorem readFiles_filter_holds (hseen : ∀ p ∈ paths, h.files.fault? p = none) :
    readFiles config h root (paths.filter h.files.holds) = readFiles config h root paths := by
  -- what is told of the outcomes tells nothing of a file that was passed over
  have hresult : ∀ o : List (Option FileOutcome), (graphOf o, (reportOf o).errors) =
      (graphOf ((o.filterMap id).map some), (reportOf ((o.filterMap id).map some)).errors) := by
    intro o
    simp only [graphOf, reportOf, filterMap_map, filterMap_filterMap, Prod.mk.injEq, Graph.mk.injEq]
    refine ⟨⟨rfl, rfl⟩, filterMap_congr fun x _ => ?_⟩
    cases x <;> rfl
  have hskip : ∀ r, ∀ p ∈ paths, ¬ h.files.holds p → readPresent r h root p = .ok none := by
    intro r p hp hholds
    rw [readPresent_eq, hseen p hp]
    exact if_neg hholds
  unfold readFiles
  refine bind_congr fun r => ?_
  have hmap := map_mapM_filter (hskip r)
  generalize (paths.filter h.files.holds).mapM (readPresent r h root) = left at hmap ⊢
  generalize paths.mapM (readPresent r h root) = right at hmap ⊢
  rcases left with e | o <;> rcases right with e' | o'
  · exact congrArg Except.error (Except.error.inj hmap)
  · cases hmap
  · cases hmap
  · have heq : o.filterMap id = o'.filterMap id := Except.ok.inj hmap
    refine congrArg Except.ok ?_
    rw [hresult, heq, ← hresult]

theorem ofNames_of_readFiles {o : Graph × List String}
    (hread : readFiles config h root paths = .ok o) :
    ∃ r, ofNames config.parsing.languages = .ok r := by
  rw [readFiles] at hread
  cases hr : ofNames config.parsing.languages with
  | error f =>
    rw [hr] at hread
    cases hread
  | ok r => exact ⟨r, rfl⟩

end CodeAtlas.Index
