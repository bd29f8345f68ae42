import Mathlib.Data.List.Flatten
import CodeAtlas.Proofs.Reading

/-!
# Walks through a tree

A walk looks at the tree that it goes through and, for links and for what is ignored, at all files.
What it makes of a path is a parameter (`walkWith`): the stops of a walk, of which some may end it,
and the files that it finds are two uses of one recursion (`walkProject_of_entry`).
-/

namespace CodeAtlas

open List

/-- A name that an entry of a directory may have. -/
def IsName (name : String) : Prop :=
  (⟨false, [name]⟩ : Path).Clean ∧ name ≠ ".."

instance (name : String) : Decidable (IsName name) :=
  inferInstanceAs (Decidable (_ ∧ _))

variable {name content : String} {children : List (String × Entry)} {c : String × Entry} {e : Entry}
  {α β : Type} {l : List (String × α)} {names r : List String} {root : Path}

theorem IsName.child_eq (h : IsName name) (p : Path) :
    p.child name = ⟨p.absolute, p.parts ++ [name]⟩ := by
  have htext : Path.ofText name = ⟨false, [name]⟩ := Path.ofText_toText h.1
  rw [Path.child, htext]
  rfl

namespace Entry

/-- Every directory lists its entries once, under proper names. -/
def Tidy (e : Entry) : Prop :=
  ∀ ⦃q : List String⦄ ⦃children : List (String × Entry)⦄, e.at? q = some (.dir children) →
    (children.map Prod.fst).Nodup ∧ ∀ c ∈ children, IsName c.1

theorem lookup_of_mem (hnodup : (children.map Prod.fst).Nodup) (hc : c ∈ children) :
    children.lookup c.1 = some c.2 := by
  induction children with
  | nil => cases hc
  | cons d children ih =>
    obtain ⟨m, e⟩ := d
    rw [lookup_cons_ite]
    rw [map_cons, nodup_cons] at hnodup
    rcases mem_cons.1 hc with rfl | hc
    · rw [if_pos rfl]
    · have hne : c.1 ≠ m := by
        intro heq
        exact hnodup.1 (mem_map.2 ⟨c, hc, heq⟩)
      rw [if_neg hne, ih hnodup.2 hc]

theorem mem_of_lookup {c : Entry} (h : children.lookup name = some c) : (name, c) ∈ children := by
  obtain ⟨before, after, rfl, -⟩ := lookup_eq_some_iff.1 h
  simp

theorem Tidy.child (h : (Entry.dir children).Tidy) (hc : c ∈ children) : c.2.Tidy := by
  have hlookup := lookup_of_mem (h (q := []) rfl).1 hc
  intro q below hq
  refine h (q := c.1 :: q) ?_
  rw [at?, child?, hlookup]
  exact hq

theorem Tidy.at? {c : Entry} {q : List String} (h : e.Tidy) (hc : e.at? q = some c) : c.Tidy := by
  intro names children hat
  refine h (q := q ++ names) ?_
  rw [at?_append, hc, Option.bind_some, hat]

mutual

/-- Whether every directory passes a test of what it lists. -/
def allDirs (test : List (String × Entry) → Bool) : Entry → Bool
  | .dir children => test children && allDirsIn test children
  | _ => true

def allDirsIn (test : List (String × Entry) → Bool) : List (String × Entry) → Bool
  | [] => true
  | (_, e) :: rest => allDirs test e && allDirsIn test rest

end

theorem allDirs_dir {test : List (String × Entry) → Bool} :
    (Entry.dir children).allDirs test ↔ test children ∧ ∀ c ∈ children,
      c.2.allDirs test := by
  have hin (l : List (String × Entry)) :
      allDirsIn test l ↔ ∀ c ∈ l, c.2.allDirs test := by
    induction l with
    | nil => simp [allDirsIn]
    | cons c l ih => rw [allDirsIn, Bool.and_eq_true, ih, forall_mem_cons]
  rw [allDirs, Bool.and_eq_true, hin]

theorem tidy_of_allDirs
    (h : e.allDirs (fun l => decide ((l.map Prod.fst).Nodup ∧ ∀ c ∈ l, IsName c.1))) : e.Tidy := by
  intro q children hat
  induction q generalizing e with
  | nil =>
    rw [Option.some.inj hat, allDirs_dir] at h
    exact of_decide_eq_true h.1
  | cons name q ih =>
    obtain ⟨c, hc, hrest⟩ := Option.bind_eq_some_iff.1 hat
    cases e with
    | dir => exact ih ((allDirs_dir.1 h).2 _ (mem_of_lookup hc)) hrest
    | file => cases hc
    | link => cases hc
    | closed => cases hc

theorem inductionOn {P : Entry → Prop} (e : Entry) (leaf : ∀ e, e.isDir = false → P e)
    (dir : ∀ children, (∀ c ∈ children, P c.2) → P (.dir children)) : P e := by
  match e with
  | .file content => exact leaf _ rfl
  | .link target => exact leaf _ rfl
  | .closed kind => exact leaf _ rfl
  | .dir children => exact dir children fun c hc => inductionOn c.2 leaf dir
termination_by sizeOf e
decreasing_by
  have hlt := sizeOf_lt_of_mem hc
  obtain ⟨name, e⟩ := c
  simp only [Prod.mk.sizeOf_spec, Entry.dir.sizeOf_spec] at hlt ⊢
  omega

end Entry

theorem byName_map (f : String × α → String × β) (hf : ∀ x, (f x).1 = x.1) (l : List (String × α)) :
    byName (l.map f) = (byName l).map f := by
  refine (map_mergeSort fun a _ b _ => ?_).symm
  rw [hf, hf]

theorem mem_byName {x : String × α} : x ∈ byName l ↔ x ∈ l :=
  mem_mergeSort

theorem pairwise_byName (l : List (String × α)) : (byName l).Pairwise fun a b => a.1 ≤ b.1 := by
  have hle (a b : String × α) : (!decide (b.1 < a.1)) ↔ a.1 ≤ b.1 := by
    rw [Bool.not_eq_true', decide_eq_false_iff_not, String.not_lt]
  have hpairwise : (byName l).Pairwise fun a b => (!decide (b.1 < a.1)) := by
    refine pairwise_mergeSort (fun a b c hab hbc => ?_) (fun a b => ?_) l
    · exact (hle a c).2 (String.le_trans ((hle a b).1 hab) ((hle b c).1 hbc))
    · rw [Bool.or_eq_true, hle, hle]
      exact String.le_total a.1 b.1
  exact hpairwise.imp fun h => (hle _ _).1 h

/-! ## A walk, directory by directory

The loop over a directory is a list of what its entries give, each by itself. -/

variable {w : WalkFilter} {files files' : Files} {p q : Path} {x : FileEntry}
  {visit : Path → Option α} {rules : Ignore.Rules} {a : α} {size : Nat}

def visitAt? (visit : Path → Option α) (files : Files) (p : Path) (c : String × Entry) : Option α :=
  if leadsToDir files (p.child c.1) c.2 then none else visit (p.child c.1)

def belowWith (visit : Path → Option α) (rules : Ignore.Rules) (files : Files) (p : Path)
    (c : String × Entry) :
    List α :=
  if c.2.isDir && !rules.ignores files (p.child c.1) true then walkWith visit rules files
    (p.child c.1) c.2 else []

theorem walkEach_eq (children : List (String × Entry)) : walkEach visit rules files p children =
    children.map fun c => (c.1, belowWith visit rules files p c) := by
  induction children with
  | nil => rw [walkEach, map_nil]
  | cons c children ih => rw [walkEach, ih, map_cons, belowWith]

/-- The files of a directory come before everything below it. -/
theorem walkWith_dir (children : List (String × Entry)) :
    walkWith visit rules files p (.dir children) =
    (byName children).filterMap (visitAt? visit files p) ++
      (byName children).flatMap (belowWith visit rules files p) := by
  rw [walkWith, walkEach_eq, byName_map (fun c => (c.1, belowWith visit rules files p c))
    (fun _ => rfl), flatMap_map]
  rfl

theorem walkWith_of_not_isDir (he : e.isDir = false) : walkWith visit rules files p e = [] := by
  cases e with
  | dir children => cases he
  | file content => simp [walkWith]
  | link target => simp [walkWith]
  | closed kind => simp [walkWith]

/-- Sorting out what a walk gives is sorting out what each visit gives. -/
theorem filterMap_walkWith (f : α → Option β) (e : Entry) (p : Path) :
    (walkWith visit rules files p e).filterMap f = walkWith
      (fun q => (visit q).bind f) rules files p e := by
  induction e using Entry.inductionOn generalizing p with
  | leaf e he => rw [walkWith_of_not_isDir he, walkWith_of_not_isDir he, filterMap_nil]
  | dir children ih =>
    rw [walkWith_dir, walkWith_dir, filterMap_append, filterMap_filterMap, filterMap_flatMap]
    congr 1
    · refine filterMap_congr fun c _ => ?_
      rw [visitAt?, visitAt?]
      split <;> rfl
    · refine flatMap_congr fun c hc => ?_
      rw [belowWith, belowWith]
      split
      · exact ih c (mem_byName.1 hc) _
      · rfl

/-- The files that a walk through a tree finds. -/
def walkEntry (w : WalkFilter) (files : Files) : Path → Entry → List FileEntry :=
  walkWith (w.file? files) w.rules files

def WalkFilter.fileAt? (w : WalkFilter) (files : Files) :
    Path → String × Entry → Option FileEntry :=
  visitAt? (w.file? files) files

def WalkFilter.below (w : WalkFilter) (files : Files) : Path → String × Entry → List FileEntry :=
  belowWith (w.file? files) w.rules files

theorem walkEntry_dir (children : List (String × Entry)) : walkEntry w files p (.dir children) =
    (byName children).filterMap (w.fileAt? files p) ++ (byName children).flatMap
      (w.below files p) :=
  walkWith_dir children

def WalkFilter.admits (w : WalkFilter) (p : Path) (size : Nat) : Bool :=
  (size : Int) ≤ w.maxSizeKb * 1024 &&
    match w.languages with
    | some names => ((languageOf? p).map (·.name)).any names.contains
    | none => true

theorem admits_iff : w.admits p size ↔
    (size : Int) ≤ w.maxSizeKb * 1024 ∧
      ∀ wanted ∈ w.languages, ∃ l, languageOf? p = some l ∧ l.name ∈ wanted := by
  rw [WalkFilter.admits, Bool.and_eq_true, decide_eq_true_iff]
  refine and_congr_right fun _ => ?_
  cases w.languages with
  | none => simp
  | some wanted => cases languageOf? p <;> simp

theorem file?_eq_some_iff : w.file? files p = some x ↔ ∃ size, files.size? p = some size ∧
    w.rules.ignores files p = false ∧ w.admits p size ∧ x = ⟨p, languageOf? p, size⟩ := by
  rw [WalkFilter.file?]
  cases hignored : w.rules.ignores files p with
  | true => simp
  | false =>
    simp only [Bool.false_eq_true, if_false, Option.bind_eq_some_iff, true_and]
    refine exists_congr fun size => and_congr_right fun _ => ?_
    show (if w.admits p size = true then some (FileEntry.mk p (languageOf? p) size) else none) =
        some x ↔ _
    split
    · next hadmits => rw [Option.some.injEq, eq_comm, and_iff_right hadmits]
    · next hadmits => simp only [reduceCtorEq, false_iff, not_and, hadmits, false_implies]

theorem file?_eq_some (h : w.file? files p = some x) : x.path = p ∧ x.language = languageOf? p ∧
    files.size? p = some x.size ∧ w.admits p x.size := by
  obtain ⟨size, hsize, -, hadmits, rfl⟩ := file?_eq_some_iff.1 h
  exact ⟨rfl, rfl, hsize, hadmits⟩

theorem file?_of_size?_eq_none (h : files.size? p = none) : w.file? files p = none := by
  rw [WalkFilter.file?, h, Option.bind_none, ite_self]

theorem Files.isDir_of_size? (h : files.size? p = some size) : files.isDir p = false := by
  obtain ⟨e, hentry, hsize⟩ := Option.bind_eq_some_iff.1 h
  rw [Files.isDir, hentry]
  rcases e with _ | _ | _ | _ | _ | _ <;> first | rfl | cases hsize

/-! ## The stops of a walk

A walk stops at what it finds, and where it has to ask about a path that cannot be looked at. It
does not stop at a directory. -/

/-- The files have to tell whether a path is a directory, and cannot. -/
def Ignore.Rules.Baffled (r : Ignore.Rules) (files : Files) (p : Path) : Prop :=
  p.absolute = true ∧ (p.relativeTo? r.root).isSome = true ∧ (files.fault? p).isSome = true

theorem ask_eq_error_iff {r : Ignore.Rules} :
    (∃ f, r.ask files p = .error f) ↔ r.Baffled files p := by
  rw [Ignore.Rules.ask, Ignore.Rules.Baffled, Files.look]
  cases p.absolute <;> cases (p.relativeTo? r.root).isSome <;> cases files.fault? p <;>
    simp [bind, Except.bind, pure, Except.pure]

theorem stop?_eq_error_iff :
    (∃ f, w.stop? files p = some (.error f)) ↔ w.rules.Baffled files p := by
  rw [← ask_eq_error_iff, WalkFilter.stop?]
  cases w.rules.ask files p <;> simp

theorem stop?_bind_toOption : (w.stop? files p).bind Except.toOption = w.file? files p := by
  rw [WalkFilter.stop?]
  cases hask : w.rules.ask files p with
  | ok => cases w.file? files p <;> rfl
  | error f =>
    obtain ⟨-, -, hfault⟩ := ask_eq_error_iff.1 ⟨f, hask⟩
    rw [file?_of_size?_eq_none]
    · rfl
    · cases hsize : files.size? p with
      | none => rfl
      | some size => simp [Files.fault?_of_size? hsize] at hfault

theorem isDir_of_stop? {s : Stop} (h : w.stop? files p = some s) : files.isDir p = false := by
  cases s with
  | ok x =>
    have hfile : w.file? files p = some x := by rw [← stop?_bind_toOption, h]; rfl
    exact Files.isDir_of_size? (file?_eq_some hfile).2.2.1
  | error f =>
    obtain ⟨-, -, hfault⟩ := stop?_eq_error_iff.1 ⟨f, h⟩
    rw [Bool.eq_false_iff]
    intro hdir
    simp [Files.fault?_of_isDir hdir] at hfault

theorem filterMap_stops (e : Entry) (p : Path) :
    (walkWith (w.stop? files) w.rules files p e).filterMap Except.toOption =
      walkEntry w files p e := by
  rw [filterMap_walkWith, walkEntry]
  simp only [stop?_bind_toOption]

theorem stops_of_entry (h : files.entry? (files.resolve root) = some e) :
    stops w files root = walkWith (w.stop? files) w.rules files (files.resolve root) e := by
  rw [stops]
  simp only [h]

theorem walkProject_of_entry (h : files.entry? (files.resolve root) = some e) :
    walkProject w files root = walkEntry w files (files.resolve root) e := by
  rw [walkProject, stops_of_entry h, filterMap_stops]

theorem walk_eq_ok_iff {found : List FileEntry} :
    walk w files root = .ok found ↔ stops w files root = found.map .ok := by
  rw [walk, Index.mapM_eq_ok_iff, map_id]

theorem eq_walkProject_of_walk {found : List FileEntry} (h : walk w files root = .ok found) :
    found = walkProject w files root := by
  rw [walkProject, walk_eq_ok_iff.1 h, filterMap_map]
  exact (filterMap_some (l := found)).symm

theorem exists_error_walk_iff :
    (∃ f, walk w files root = .error f) ↔ ∃ f, .error f ∈ stops w files root := by
  have hok : (∃ found, walk w files root = .ok found) ↔ ∀ s ∈ stops w files root, ∃ x, s = .ok x :=
    Index.exists_mapM_eq_ok_iff
  constructor
  · rintro ⟨f, hf⟩
    by_contra hnone
    obtain ⟨found, hfound⟩ := hok.2 fun s hs => by
      cases s with
      | ok x => exact ⟨x, rfl⟩
      | error g => exact absurd ⟨g, hs⟩ hnone
    cases hf.symm.trans hfound
  · rintro ⟨f, hf⟩
    cases hwalk : walk w files root with
    | error g => exact ⟨g, rfl⟩
    | ok found =>
      obtain ⟨x, hx⟩ := hok.1 ⟨found, hwalk⟩ _ hf
      cases hx

theorem walkProject_of_no_entry (h : files.entry? (files.resolve root) = none) :
    walkProject w files root = [] := by
  rw [walkProject, stops]
  simp only [h, filterMap_nil]

/-! ## What a walk finds

Names that lead to an entry through directories that are entered. -/

/-- The names lead through directories of a tree to an entry that is no directory. -/
inductive FoundIn : Entry → List String → Prop
  | here {children : List (String × Entry)} {name : String} {c : Entry} (hname : IsName name)
      (hc : children.lookup name = some c) (hnoDir : c.isDir = false) :
    FoundIn (.dir children) [name]
  | deeper {children : List (String × Entry)} {name : String} {c : Entry} {names : List String}
      (hname : IsName name)
      (hc : children.lookup name = some c) (h : FoundIn c names) :
    FoundIn (.dir children) (name :: names)

theorem mem_walkWith_dir : a ∈ walkWith visit rules files p (.dir children) ↔
    ∃ c ∈ children, visitAt? visit files p c = some a ∨ a ∈ belowWith visit rules files p c := by
  rw [walkWith_dir, mem_append, mem_filterMap, mem_flatMap]
  simp only [mem_byName, ← exists_or, ← and_or_left]

theorem not_mem_walkWith (he : e.isDir = false) : a ∉ walkWith visit rules files p e := by
  rw [walkWith_of_not_isDir he]
  exact not_mem_nil

theorem visitAt?_eq_some (h : visitAt? visit files p c = some a) :
    c.2.isDir = false ∧ visit (p.child c.1) = some a := by
  rw [visitAt?] at h
  split at h
  · cases h
  · next hleads =>
    refine ⟨?_, h⟩
    rw [Bool.not_eq_true] at hleads
    cases hkind : c.2 with
    | dir below => rw [hkind] at hleads; cases hleads
    | file content => rfl
    | link target => rfl
    | closed kind => rwa [hkind] at hleads

theorem mem_belowWith_iff : a ∈ belowWith visit rules files p c ↔ c.2.isDir ∧
    rules.ignores files (p.child c.1) true = false ∧ a ∈ walkWith visit rules files
      (p.child c.1) c.2 := by
  rw [belowWith]
  split
  · next hopen =>
    rw [Bool.and_eq_true, Bool.not_eq_true'] at hopen
    exact ⟨fun hx => ⟨hopen.1, hopen.2, hx⟩, fun h => h.2.2⟩
  · next hclosed =>
    refine ⟨fun hx => absurd hx not_mem_nil, ?_⟩
    rintro ⟨hdir, hentered, -⟩
    rw [hdir, hentered] at hclosed
    exact absurd rfl hclosed

theorem exists_visit_of_mem_walkWith (ha : a ∈ walkWith visit rules files p e) :
    ∃ q, visit q = some a := by
  induction e using Entry.inductionOn generalizing p with
  | leaf e he => exact absurd ha (not_mem_walkWith he)
  | dir children ih =>
    obtain ⟨c, hc, ha | ha⟩ := mem_walkWith_dir.1 ha
    · exact ⟨_, (visitAt?_eq_some ha).2⟩
    · exact ih c hc (mem_belowWith_iff.1 ha).2.2

theorem leadsToDir_eq_false (he : e.isDir = false) (h : files.isDir p = false) :
    leadsToDir files p e = false := by
  cases e with
  | dir children => cases he
  | file content => rfl
  | link target => exact h
  | closed kind => exact he

/-- None of the directories between a path and what names below it lead to is ignored. -/
def WalkFilter.Enters (w : WalkFilter) (files : Files) (p : Path) (names : List String) : Prop :=
  ∀ above below, above ++ below = names → above ≠ [] → below ≠ [] →
    w.rules.ignores files ⟨p.absolute, p.parts ++ above⟩ true = false

theorem enters_singleton (w : WalkFilter) (files : Files) (p : Path) (name : String) :
    w.Enters files p [name] := by
  intro above below heq habove hbelow
  rcases append_eq_singleton_iff.1 heq with ⟨rfl, -⟩ | ⟨-, rfl⟩
  · exact absurd rfl habove
  · exact absurd rfl hbelow

theorem enters_cons_iff (hne : names ≠ []) :
    w.Enters files p (name :: names) ↔ w.rules.ignores files ⟨p.absolute, p.parts ++ [name]⟩ true =
      false ∧ w.Enters files ⟨p.absolute, p.parts ++ [name]⟩ names := by
  constructor
  · intro h
    refine ⟨h [name] names rfl (cons_ne_nil _ _) hne, fun above below heq _ hbelow => ?_⟩
    rw [append_assoc]
    exact h (name :: above) below (congrArg (name :: ·) heq) (cons_ne_nil _ _) hbelow
  · rintro ⟨hfirst, hrest⟩ above below heq habove hbelow
    obtain ⟨rfl, -⟩ | ⟨above, rfl, rfl⟩ := append_eq_cons_iff.1 heq
    · exact absurd rfl habove
    · by_cases hnil : above = []
      · rw [hnil, hfirst]
      · rw [append_cons]
        exact hrest above below rfl hnil hbelow

theorem FoundIn.ne_nil (h : FoundIn e names) : names ≠ [] := by
  cases h <;> exact cons_ne_nil _ _

/-- **What a walk through a tree comes by**: what names lead to without a directory that is
ignored. -/
theorem mem_walkWith_iff (htidy : e.Tidy) (hvisit : ∀ q a, visit q = some a →
    files.isDir q = false) :
    a ∈ walkWith visit w.rules files p e ↔ ∃ names, FoundIn e names ∧ w.Enters files p names ∧
      visit ⟨p.absolute, p.parts ++ names⟩ = some a := by
  constructor
  · intro ha
    induction e using Entry.inductionOn generalizing p with
    | leaf e he => exact absurd ha (not_mem_walkWith he)
    | dir children ih =>
      obtain ⟨hnodup, hnames⟩ := htidy (q := []) rfl
      obtain ⟨c, hc, ha⟩ := mem_walkWith_dir.1 ha
      have hname := hnames c hc
      have hlookup := Entry.lookup_of_mem hnodup hc
      rcases ha with ha | ha
      · obtain ⟨hnoDir, ha⟩ := visitAt?_eq_some ha
        rw [hname.child_eq] at ha
        exact ⟨[c.1], .here hname hlookup hnoDir, enters_singleton w files p c.1, ha⟩
      · obtain ⟨-, hentered, ha⟩ := mem_belowWith_iff.1 ha
        obtain ⟨names, hfound, henters, ha⟩ := ih c hc (htidy.child hc) ha
        rw [hname.child_eq] at hentered henters ha
        rw [append_assoc] at ha
        exact ⟨c.1 :: names, .deeper hname hlookup hfound,
          (enters_cons_iff hfound.ne_nil).2 ⟨hentered, henters⟩, ha⟩
  · rintro ⟨names, hfound, henters, ha⟩
    induction hfound generalizing p with
    | @here children name c hname hc hnoDir =>
      refine mem_walkWith_dir.2 ⟨(name, c), Entry.mem_of_lookup hc, .inl ?_⟩
      rw [visitAt?, hname.child_eq, leadsToDir_eq_false hnoDir (hvisit _ _ ha)]
      exact ha
    | @deeper children name c names hname hc hfound ih =>
      have hmem := Entry.mem_of_lookup hc
      have hdir : c.isDir := by cases hfound <;> rfl
      obtain ⟨hentered, henters⟩ := (enters_cons_iff hfound.ne_nil).1 henters
      refine mem_walkWith_dir.2 ⟨(name, c), hmem, .inr (mem_belowWith_iff.2 ⟨hdir, ?_, ?_⟩)⟩
      · rw [hname.child_eq, hentered]
      · rw [hname.child_eq]
        refine ih (htidy.child hmem) henters ?_
        rw [append_assoc]
        exact ha

/-- A walk is ended where one of these paths cannot be looked at. -/
theorem exists_error_mem_walkWith_iff (htidy : e.Tidy) :
    (∃ f, .error f ∈ walkWith (w.stop? files) w.rules files p e) ↔
      ∃ names, FoundIn e names ∧ w.Enters files p names ∧
        w.rules.Baffled files ⟨p.absolute, p.parts ++ names⟩ := by
  simp only [mem_walkWith_iff htidy fun _ _ => isDir_of_stop?, ← stop?_eq_error_iff]
  constructor
  · rintro ⟨f, names, hfound, henters, hf⟩
    exact ⟨names, hfound, henters, f, hf⟩
  · rintro ⟨names, hfound, henters, f, hf⟩
    exact ⟨f, names, hfound, henters, hf⟩

theorem mem_walkEntry_iff (htidy : e.Tidy) : x ∈ walkEntry w files p e ↔
    ∃ names, FoundIn e names ∧ w.Enters files p names ∧
      w.file? files ⟨p.absolute, p.parts ++ names⟩ = some x :=
  mem_walkWith_iff htidy fun _ _ h => Files.isDir_of_size? (file?_eq_some h).2.2.1

theorem exists_foundIn_of_mem_walkEntry (htidy : e.Tidy) (hx : x ∈ walkEntry w files p e) :
    ∃ names, FoundIn e names ∧ x.path = ⟨p.absolute, p.parts ++ names⟩ := by
  obtain ⟨names, hfound, -, hfile⟩ := (mem_walkEntry_iff htidy).1 hx
  exact ⟨names, hfound, (file?_eq_some hfile).1⟩

theorem file?_of_mem_walkProject (hx : x ∈ walkProject w files root) :
    w.file? files x.path = some x := by
  cases hentry : files.entry? (files.resolve root) with
  | none =>
    rw [walkProject_of_no_entry hentry] at hx
    cases hx
  | some e =>
    rw [walkProject_of_entry hentry] at hx
    obtain ⟨q, hq⟩ := exists_visit_of_mem_walkWith hx
    rw [(file?_eq_some hq).1, hq]

theorem language_of_mem_walkProject (hnames : w.languages = some names)
    (hx : x ∈ walkProject w files root) :
    ∃ l, languageOf? x.path = some l ∧ l.name ∈ names := by
  obtain ⟨-, -, -, hadmits⟩ := file?_eq_some (file?_of_mem_walkProject hx)
  exact (admits_iff.1 hadmits).2 names hnames

end CodeAtlas
