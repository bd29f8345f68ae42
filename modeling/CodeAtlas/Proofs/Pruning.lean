import CodeAtlas.Proofs.Cutting
import CodeAtlas.Proofs.IgnorePatterns
import CodeAtlas.Proofs.Walking

/-!
# Directories that need not be entered

A walk does not enter a directory that is ignored. Where no pattern takes anything back and none has
a bracket expression, everything below such a directory is ignored as well
(`excludesRelative_below`), so a walk that enters all directories finds nothing else
(`walkEntry_eq_filter`).

The directory of the project itself is an exception. Its path is written as a dot, which patterns
for hidden files match, and no walk asks whether it is ignored.
-/

namespace CodeAtlas

open List Text

/-! ## Names and texts

A pattern without exceptions matches what lies below a path that it matches. -/

/-- A name that can stand on one line. -/
def LineName (name : String) : Prop :=
  IsName name ∧ '\n' ∉ name.toList

instance (name : String) : Decidable (LineName name) :=
  inferInstanceAs (Decidable (_ ∧ _))

variable {name : String} {base : Path} {children : List (String × Entry)} {e : Entry}

namespace Ignore

theorem oneLine_join {names : List String} (hnames : ∀ n ∈ names, LineName n) :
    OneLine (join "/" names).toList := by
  intro c hc
  rw [isPlain, bne_iff_ne]
  rintro rfl
  rcases mem_join hc with hsep | ⟨n, hn, hmem⟩
  · revert hsep
    decide
  · exact (hnames n hn).2 hmem

theorem matchedForm_eq {s : String} {after : List Char} (hname : LineName name)
    (hs : s.toList = name.toList ++ after) :
    matchedForm s = s := by
  obtain ⟨hempty, hdot, hslash⟩ := hname.1.1 name mem_cons_self
  unfold matchedForm
  cases hcs : name.toList with
  | nil => exact absurd (String.toList_eq_nil_iff.1 hcs) hempty
  | cons c cs =>
    rw [hcs] at hs hslash
    rw [hs, cons_append]
    split
    · next heq =>
      obtain ⟨rfl, -⟩ := List.cons.inj heq
      exact absurd mem_cons_self hslash
    · next heq =>
      -- a dot before a slash would be a name of its own
      obtain ⟨rfl, hrest⟩ := List.cons.inj heq
      cases cs with
      | nil => exact absurd (String.toList_inj.1 hcs) hdot
      | cons d cs =>
        obtain ⟨rfl, -⟩ := List.cons.inj hrest
        exact absurd (mem_cons_of_mem _ mem_cons_self) hslash
    · rfl

variable {patterns : List Pattern}

theorem excludes_eq_any (hpatterns : ∀ p ∈ patterns, p.restores = false) (path : String) :
    excludes patterns path = patterns.any (·.hits path) := by
  unfold excludes
  cases hfind : patterns.reverse.find? fun p => p.hits path with
  | none =>
    symm
    rw [any_eq_false]
    intro p hp
    exact find?_eq_none.1 hfind p (mem_reverse.2 hp)
  | some p =>
    have hp := mem_reverse.1 (mem_of_find?_eq_some hfind)
    show (!p.restores) = _
    rw [hpatterns p hp]
    exact (any_eq_true.2 ⟨p, hp, find?_some hfind⟩).symm

theorem exists_parse?_of_mem {lines : List String} (hread : parseAll lines = .ok patterns)
    {p : Pattern} (hp : p ∈ patterns) : ∃ line ∈ lines, parse? line = .ok (some p) := by
  obtain ⟨found, hfound, rfl⟩ := map_eq_ok hread
  obtain ⟨p?, hmem, rfl⟩ := mem_filterMap.1 hp
  have hok : (.ok (some p) : Except Flaw (Option Pattern)) ∈ lines.map parse? := by
    rw [Index.mapM_eq_ok_iff.1 hfound]
    exact mem_map_of_mem hmem
  exact mem_map.1 hok

theorem ignores_append {r : Rules} (habsolute : r.root.absolute) (files : Files)
    (names : List String) (isDir : Bool) :
    r.ignores files (r.root.append ⟨false, names⟩) isDir =
      r.excludesRelative ⟨false, names⟩ (isDir || files.isDir (r.root.append ⟨false, names⟩)) := by
  have happend : r.root.append ⟨false, names⟩ = ⟨r.root.absolute, r.root.parts ++ names⟩ := rfl
  have hrelative :
      Path.relativeTo? ⟨r.root.absolute, r.root.parts ++ names⟩ r.root = some ⟨false, names⟩ := by
    rw [Path.relativeTo?, beq_self_eq_true, Bool.true_and, if_pos, drop_left]
    exact isPrefixOf_iff_prefix.2 (prefix_append _ _)
  rw [Rules.ignores, happend, if_pos habsolute]
  simp only [hrelative]

section Below

variable {lines : List String} {r : Rules} (hread : parseAll lines = .ok r.patterns)
  (hsimple : ∀ p ∈ r.patterns, p.Simple)
  {ds xs : List String} (hds : ds ≠ []) (hxs : xs ≠ []) (hnames : ∀ n ∈ ds ++ xs, LineName n)

include hread hsimple hds hxs hnames

/-- **What lies below an excluded directory is excluded.** -/
theorem excludesRelative_below (h : r.excludesRelative ⟨false, ds⟩ true) (isDir : Bool) :
    r.excludesRelative ⟨false, ds ++ xs⟩ isDir := by
  obtain ⟨d, ds, rfl⟩ := exists_cons_of_ne_nil hds
  have hd : LineName d := hnames d (mem_append_left xs mem_cons_self)
  obtain ⟨after, hafter⟩ := exists_toList_join_head "/" d ds
  obtain ⟨more, hmore⟩ : ∃ more, (join "/" (d :: ds ++ xs)).toList = d.toList ++ more :=
    exists_toList_join_head "/" d (ds ++ xs)
  have hdir : Path.toText ⟨false, d :: ds⟩ = join "/" (d :: ds) := rfl
  have hpath : Path.toText ⟨false, d :: ds ++ xs⟩ = join "/" (d :: ds ++ xs) := rfl
  have hslash : (join "/" (d :: ds) ++ "/").toList = d.toList ++ (after ++ ['/']) := by
    rw [String.toList_append, hafter, append_assoc]
    rfl
  have hrestores : ∀ p ∈ r.patterns, p.restores = false := fun p hp => (hsimple p hp).1
  rw [Rules.excludesRelative, hdir, matchedForm_eq hd hafter, matchedForm_eq hd hslash,
    excludes_eq_any hrestores,
    excludes_eq_any hrestores, Bool.true_and, Bool.or_eq_true, any_eq_true, any_eq_true,
      ← exists_or] at h
  obtain ⟨p, h⟩ := h
  rw [← and_or_left] at h
  obtain ⟨hp, hhits⟩ := h
  obtain ⟨line, -, hline⟩ := exists_parse?_of_mem hread hp
  -- one pattern matches the directory, and it goes on below
  have hbelow : p.hits (join "/" (d :: ds ++ xs)) := by
    rw [Pattern.hits, toList_join_append_join "/" (cons_ne_nil d ds) hxs]
    refine matchItems_below (goesOn_of_parse? hline (hsimple p hp))
      (oneLine_join fun n hn => hnames n ?_) (oneLine_join fun n hn => hnames n ?_) ?_
    · exact mem_append_left xs hn
    · exact mem_append_right _ hn
    · rw [Pattern.hits, Pattern.hits, String.toList_append] at hhits
      exact hhits
  rw [Rules.excludesRelative, hpath, matchedForm_eq hd hmore, excludes_eq_any hrestores,
    Bool.or_eq_true]
  exact .inl (any_eq_true.2 ⟨p, hp, hbelow⟩)

theorem ignores_below (files : Files) (hbase : base = {} ∨ base = r.root ∧ r.root.absolute)
    (h : r.ignores files (base.append ⟨false, ds⟩) true) (isDir : Bool) :
    r.ignores files (base.append ⟨false, ds ++ xs⟩) isDir := by
  rcases hbase with rfl | ⟨rfl, habsolute⟩
  · exact excludesRelative_below hread hsimple hds hxs hnames h isDir
  · rw [ignores_append habsolute, Bool.true_or] at h
    rw [ignores_append habsolute]
    exact excludesRelative_below hread hsimple hds hxs hnames h _

end Below

end Ignore

def Entry.OneLine (e : Entry) : Prop :=
  ∀ ⦃names : List String⦄ ⦃c : Entry⦄, e.at? names = some c → ∀ n ∈ names, '\n' ∉ n.toList

theorem Entry.OneLine.child (h : (Entry.dir children).OneLine) {c : Entry}
    (hc : children.lookup name = some c) : '\n' ∉ name.toList ∧ c.OneLine := by
  have hat {names : List String} {d : Entry} (hd : c.at? names = some d) :
      (Entry.dir children).at? (name :: names) = some d := by
    rw [Entry.at?, Entry.child?, hc]
    exact hd
  constructor
  · exact h (hat (show c.at? [] = some c from rfl)) name mem_cons_self
  · intro names d hd n hn
    exact h (hat hd) n (mem_cons_of_mem name hn)

theorem Entry.oneLine_of_allDirs
    (h : e.allDirs (fun l => decide (∀ c ∈ l, '\n' ∉ c.1.toList))) : e.OneLine := by
  intro names d hat
  induction names generalizing e with
  | nil => exact nofun
  | cons name names ih =>
    obtain ⟨c, hc, hrest⟩ := Option.bind_eq_some_iff.1 hat
    cases e with
    | dir =>
      obtain ⟨hnames, hbelow⟩ := Entry.allDirs_dir.1 h
      have hmem := mem_of_lookup hc
      exact forall_mem_cons.2 ⟨of_decide_eq_true hnames _ hmem, ih (hbelow _ hmem) hrest⟩
    | file => cases hc
    | link => cases hc
    | closed => cases hc

theorem FoundIn.lineNames {names : List String} (h : FoundIn e names) (hline : e.OneLine) :
    ∀ n ∈ names, LineName n := by
  induction h with
  | here hname hc _ => exact forall_mem_singleton.2 ⟨hname, (hline.child hc).1⟩
  | deeper hname hc _ ih => exact forall_mem_cons.2 ⟨⟨hname, (hline.child hc).1⟩,
      ih (hline.child hc).2⟩

variable {w : WalkFilter} {files : Files} {p : Path} {x : FileEntry}

/-- The filter that ignores nothing and makes the other tests. -/
def WalkFilter.ignoringNothing (w : WalkFilter) : WalkFilter :=
  { w with rules := { w.rules with patterns := [] } }

theorem ignores_ignoringNothing (w : WalkFilter) (files : Files) (p : Path) (isDir : Bool) :
    w.ignoringNothing.rules.ignores files p isDir = false := by
  have hnone (rel : Path) (flag : Bool) :
      w.ignoringNothing.rules.excludesRelative rel flag = false := by
    show (false || (flag && false)) = false
    rw [Bool.and_false]
    rfl
  unfold Ignore.Rules.ignores
  split
  · split
    · exact hnone _ _
    · rfl
  · exact hnone _ _

theorem file?_eq_filter (w : WalkFilter) (files : Files) (p : Path) :
    w.file? files p = (w.ignoringNothing.file? files p).filter fun x => !w.rules.ignores files
      x.path := by
  ext x
  rw [Option.filter_eq_some_iff, file?_eq_some_iff, file?_eq_some_iff, ignores_ignoringNothing,
    Bool.not_eq_true']
  constructor
  · rintro ⟨size, hsize, hignored, hadmits, rfl⟩
    exact ⟨⟨size, hsize, rfl, hadmits, rfl⟩, hignored⟩
  · rintro ⟨⟨size, hsize, -, hadmits, rfl⟩, hignored⟩
    exact ⟨size, hsize, hignored, hadmits, rfl⟩

theorem child_append {q : List String} (hname : IsName name) :
    (base.append ⟨false, q⟩).child name = base.append ⟨false, q ++ [name]⟩ := by
  rw [hname.child_eq]
  show (⟨base.absolute, base.parts ++ q ++ [name]⟩ : Path) =
      ⟨base.absolute, base.parts ++ (q ++ [name])⟩
  rw [append_assoc]

/-- **Where everything below an ignored directory is ignored, a walk may as well enter all
directories.** -/
theorem walkEntry_eq_filter
    (hbelow : ∀ ds xs : List String, ds ≠ [] → xs ≠ [] → (∀ n ∈ ds ++ xs, LineName n) →
      w.rules.ignores files (base.append ⟨false, ds⟩) true →
      w.rules.ignores files (base.append ⟨false, ds ++ xs⟩))
    (htidy : e.Tidy) (hline : e.OneLine) {q : List String} (hq : ∀ n ∈ q, LineName n) :
    walkEntry w files (base.append ⟨false, q⟩) e =
      (walkEntry w.ignoringNothing files (base.append ⟨false, q⟩) e).filter fun x =>
        !w.rules.ignores files x.path := by
  induction e using Entry.inductionOn generalizing q with
  | leaf e he => rw [walkEntry, walkEntry, walkWith_of_not_isDir he, walkWith_of_not_isDir he,
      filter_nil]
  | dir children ih =>
    rw [walkEntry_dir, walkEntry_dir, filter_append, filter_filterMap, filter_flatMap]
    congr 1
    · refine filterMap_congr fun c _ => ?_
      rw [WalkFilter.fileAt?, WalkFilter.fileAt?, visitAt?, visitAt?, file?_eq_filter]
      split <;> rfl
    · refine flatMap_congr fun c hc => ?_
      have hmem := mem_byName.1 hc
      obtain ⟨hnodup, hnames⟩ := htidy (q := []) rfl
      obtain ⟨hfeed, hlineChild⟩ := hline.child (Entry.lookup_of_mem hnodup hmem)
      have hq' : ∀ n ∈ q ++ [c.1], LineName n :=
        forall_mem_append.2 ⟨hq, forall_mem_singleton.2 ⟨hnames c hmem, hfeed⟩⟩
      rw [WalkFilter.below, WalkFilter.below, belowWith, belowWith, child_append (hnames c hmem),
        ignores_ignoringNothing]
      cases hdir : c.2.isDir with
      | false => rfl
      | true =>
        cases hignored : w.rules.ignores files (base.append ⟨false, q ++ [c.1]⟩) true with
        | false => exact ih c hmem (htidy.child hmem) hlineChild hq'
        | true =>
          -- what the other walk finds below is ignored, one by one
          symm
          refine filter_eq_nil_iff.2 fun x hx => ?_
          obtain ⟨names, hfound, hpath⟩ := exists_foundIn_of_mem_walkEntry (htidy.child hmem) hx
          have hignoredBelow := hbelow (q ++ [c.1]) names (by simp) hfound.ne_nil
            (forall_mem_append.2 ⟨hq', hfound.lineNames hlineChild⟩) hignored
          have hsame : x.path = base.append ⟨false, q ++ [c.1] ++ names⟩ := by
            rw [hpath]
            show (⟨base.absolute, base.parts ++ (q ++ [c.1]) ++ names⟩ : Path) = _
            rw [append_assoc]
            rfl
          rw [hsame, hignoredBelow]
          exact Bool.false_ne_true

/-- **Not entering ignored directories loses nothing**, if no pattern takes anything back and none
has a bracket expression. Below an ignored directory other than the project's own, everything is
ignored, so a walk finds exactly the files outside of linked directories that are not ignored
themselves and pass the tests for size and language, as if it had entered every directory. -/
theorem ignores_below_and_mem_walkProject_iff {lines : List String} (w : WalkFilter)
    (hread : Ignore.parseAll lines = .ok w.rules.patterns)
    (hsimple : ∀ p ∈ w.rules.patterns, p.Simple) (files : Files)
    (root : Path) (hroot : w.rules.root = files.resolve root) {e : Entry}
    (hentry : files.entry? w.rules.root = some e) (htidy : e.Tidy) (hline : e.OneLine) :
    (∀ base, base = {} ∨ base = w.rules.root → ∀ ds xs : List String, ds ≠ [] → xs ≠ [] →
      (∀ n ∈ ds ++ xs, LineName n) → w.rules.ignores files (base.append ⟨false, ds⟩) true = true →
      ∀ isDir, w.rules.ignores files (base.append ⟨false, ds ++ xs⟩) isDir = true) ∧
    (∀ x, x ∈ walkProject w files root ↔ ∃ names size, FoundIn e names ∧
      x.path = w.rules.root.append ⟨false, names⟩ ∧ files.size? x.path = some size ∧
      w.rules.ignores files x.path = false ∧ w.admits x.path size = true ∧
      x = ⟨x.path, languageOf? x.path, size⟩) ∧
    walkProject w files root =
      (walkProject w.ignoringNothing files root).filter (fun x => !w.rules.ignores files x.path) ∧
    ∀ found, walk w files root = .ok found → found = walkProject w files root := by
  have habsolute : w.rules.root.absolute = true := by
    rw [hroot]
    rfl
  have hwalk (v : WalkFilter) : walkProject v files root = walkEntry v files w.rules.root e := by
    rw [hroot] at hentry ⊢
    exact walkProject_of_entry hentry
  -- the walk starts at the directory of the project, without asking whether it is ignored
  have hhere : w.rules.root.append ⟨false, []⟩ = w.rules.root := by
    show (⟨_, w.rules.root.parts ++ []⟩ : Path) = w.rules.root
    rw [append_nil]
  have hfilter := walkEntry_eq_filter (q := []) (fun ds xs hds hxs hnames h =>
    Ignore.ignores_below hread hsimple hds hxs hnames files (.inr ⟨rfl, habsolute⟩) h false) htidy
      hline
    (fun n hn => absurd hn not_mem_nil)
  rw [hhere, ← hwalk, ← hwalk] at hfilter
  refine ⟨fun base hbase ds xs hds hxs hnames => ?_, fun x => ⟨fun hx => ?_, ?_⟩, hfilter,
    fun found => eq_walkProject_of_walk⟩
  · exact Ignore.ignores_below hread hsimple hds hxs hnames files
      (hbase.imp_right fun h => ⟨h, habsolute⟩)
  · have hfile := file?_of_mem_walkProject hx
    rw [hwalk] at hx
    obtain ⟨names, hfound, hpath⟩ := exists_foundIn_of_mem_walkEntry htidy hx
    obtain ⟨size, hsize, hignored, hadmits, heq⟩ := file?_eq_some_iff.1 hfile
    exact ⟨names, size, hfound, hpath, hsize, hignored, hadmits, heq⟩
  · rintro ⟨names, size, hfound, hpath, hsize, hignored, hadmits, heq⟩
    have hfile : w.ignoringNothing.file? files x.path = some x :=
      file?_eq_some_iff.2 ⟨size, hsize, ignores_ignoringNothing w files x.path false, hadmits, heq⟩
    rw [hfilter, mem_filter, hwalk, hignored]
    rw [hpath] at hfile
    exact ⟨(mem_walkEntry_iff htidy).2 ⟨names, hfound, fun _ _ _ _ _ => ignores_ignoringNothing w
      files _ true, hfile⟩, rfl⟩

/-- The directory of a project may be ignored while its files are not. -/
theorem ignores_root_not_below : ∃ r : Ignore.Rules, Ignore.parseAll [".*"] = .ok r.patterns ∧
    (∀ p ∈ r.patterns, p.Simple) ∧ r.ignores {} {} true = true ∧ r.ignores {} r.root true = true ∧
    r.ignores {} ⟨false, ["a.py"]⟩ = false := by
  refine ⟨⟨⟨true, []⟩, [⟨false, [.above, .glob (.exact '.'), .glob .run, .belowOrHere]⟩]⟩, ?_, ?_,
    ?_, ?_, ?_⟩
  · rfl
  · decide
  · decide
  · decide
  · decide

/-- Below the directory `a` there are files at two depths; beside it there are a file and a link to
it. -/
def starredTree : Entry :=
  .dir [("a", .dir [("b.py", .file "x"), ("d", .dir [("e.py", .file "z")])]), ("c.py", .file "y"),
    ("f", .link "a")]

def starredFiles : Files :=
  ⟨.dir [("p", starredTree)]⟩

/-- The filter for the pattern `a/***`, which matches the directory `a` only with a slash after
it. -/
def starredFilter : WalkFilter where
  rules := ⟨⟨true, ["p"]⟩,
    [⟨false, [.glob (.exact 'a'), .slash, .glob .run, .glob .run, .glob .run, .belowOrHere]⟩]⟩

theorem tidy_starredTree : starredTree.Tidy :=
  Entry.tidy_of_allDirs (by decide)

theorem oneLine_starredTree : starredTree.OneLine :=
  Entry.oneLine_of_allDirs (by decide)

theorem ignores_below_and_mem_walkProject_iff_starred :
    Ignore.parseAll ["a/***"] = .ok starredFilter.rules.patterns ∧
      (∀ p ∈ starredFilter.rules.patterns, p.Simple) ∧
      starredFilter.rules.root = starredFiles.resolve ⟨true, ["p"]⟩ ∧
      starredFiles.entry? starredFilter.rules.root = some starredTree ∧ starredTree.Tidy ∧
        starredTree.OneLine ∧
      starredFilter.rules.ignores starredFiles ⟨true, ["p", "a"]⟩ true = true ∧
      starredFilter.rules.ignores starredFiles ⟨true, ["p", "a", "d", "e.py"]⟩ = true ∧
      (∃ x ∈ walkProject starredFilter starredFiles ⟨true, ["p"]⟩, x.path = ⟨true, ["p", "c.py"]⟩) ∧
      ∀ x ∈ walkProject starredFilter starredFiles ⟨true, ["p"]⟩,
        x.path ≠ ⟨true, ["p", "a", "d", "e.py"]⟩ := by
  have hread : Ignore.parseAll ["a/***"] = .ok starredFilter.rules.patterns := rfl
  have hsimple : ∀ p ∈ starredFilter.rules.patterns, p.Simple := by decide
  have hroot : starredFilter.rules.root = starredFiles.resolve ⟨true, ["p"]⟩ := by decide
  have hentry : starredFiles.entry? starredFilter.rules.root = some starredTree := rfl
  obtain ⟨hbelow, hwalk, -⟩ :=
    ignores_below_and_mem_walkProject_iff starredFilter hread hsimple starredFiles
    ⟨true, ["p"]⟩ hroot hentry tidy_starredTree oneLine_starredTree
  have hdir : starredFilter.rules.ignores starredFiles ⟨true, ["p", "a"]⟩ true = true := by decide
  have hfile : starredFilter.rules.ignores starredFiles ⟨true, ["p", "a", "d", "e.py"]⟩ = true :=
    hbelow _ (.inr rfl) ["a"] ["d", "e.py"] nofun nofun (by decide) hdir false
  refine ⟨hread, hsimple, hroot, hentry, tidy_starredTree, oneLine_starredTree, hdir, hfile, ?_,
    fun x hx heq => ?_⟩
  · refine ⟨⟨⟨true, ["p", "c.py"]⟩, languageOf? ⟨true, ["p", "c.py"]⟩, 1⟩, (hwalk _).2 ?_, rfl⟩
    exact ⟨["c.py"], 1, .here (by decide) rfl rfl, rfl, rfl, by decide, by decide, rfl⟩
  · obtain ⟨-, -, -, -, -, hignored, -⟩ := (hwalk x).1 hx
    rw [heq, hfile] at hignored
    cases hignored

end CodeAtlas
