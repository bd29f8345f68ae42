import CodeAtlas.Proofs.Walking

/-!
# The order of a walk

In every directory a walk gives first the files by name, then what the subdirectories hold, these by
name. Nothing comes before itself in this order (`Before.irrefl`), so what is in order is listed
once.
-/

namespace CodeAtlas

open List

/-- One list of names is visited before another one. -/
inductive Before : List String → List String → Prop
  | files {m n : String} (h : m < n) : Before [m] [n]
  | filesFirst {m n k : String} {rest : List String} : Before [m] (n :: k :: rest)
  | dirs {m n a b : String} {as bs : List String} (h : m < n) : Before (m :: a :: as) (n :: b :: bs)
  | within {d : String} {as bs : List String} (h : Before as bs) : Before (d :: as) (d :: bs)

theorem Before.irrefl {names : List String} (h : Before names names) : False := by
  induction names with
  | nil => cases h
  | cons d names ih =>
    cases h with
    | files h => exact String.lt_irrefl d h
    | dirs h => exact String.lt_irrefl d h
    | within h => exact ih h

theorem Before.append {as bs : List String} (h : Before as bs) (base : List String) :
    Before (base ++ as) (base ++ bs) := by
  induction base with
  | nil => exact h
  | cons d base ih => exact .within ih

theorem pairwise_lt_byName {α : Type} {l : List (String × α)} (hnodup : (l.map Prod.fst).Nodup) :
    (byName l).Pairwise fun a b => a.1 < b.1 := by
  have hdistinct : (byName l).Pairwise fun a b => a.1 ≠ b.1 :=
    pairwise_map.1 (((mergeSort_perm l _).map Prod.fst).nodup_iff.2 hnodup)
  refine (hdistinct.and (pairwise_byName l)).imp ?_
  rintro a b ⟨hne, hle⟩
  exact String.not_le.1 fun hge => hne (String.le_antisymm hle hge)

variable {w : WalkFilter} {files : Files} {p : Path} {x : FileEntry} {c : String × Entry}

theorem parts_of_fileAt? (hname : IsName c.1) (hx : w.fileAt? files p c = some x) :
    x.path.parts = p.parts ++ [c.1] := by
  rw [(file?_eq_some (visitAt?_eq_some hx).2).1, hname.child_eq]

theorem parts_of_mem_below (hname : IsName c.1) (htidy : c.2.Tidy) (hx : x ∈ w.below files p c) :
    ∃ first rest, x.path.parts = p.parts ++ c.1 :: first :: rest := by
  obtain ⟨names, hfound, hpath⟩ :=
    exists_foundIn_of_mem_walkEntry htidy (mem_belowWith_iff.1 hx).2.2
  obtain ⟨first, rest, rfl⟩ := exists_cons_of_ne_nil hfound.ne_nil
  refine ⟨first, rest, ?_⟩
  rw [hpath, hname.child_eq, append_assoc, singleton_append]

/-- **A walk goes through a tree in order.** -/
theorem pairwise_before_walkEntry {e : Entry} (htidy : e.Tidy) :
    (walkEntry w files p e).Pairwise fun x y => Before x.path.parts y.path.parts := by
  induction e using Entry.inductionOn generalizing p with
  | leaf e he =>
    rw [walkEntry, walkWith_of_not_isDir he]
    exact .nil
  | dir children ih =>
    obtain ⟨hnodup, hnames⟩ := htidy (q := []) rfl
    have hname {c : String × Entry} (hc : c ∈ byName children) : IsName c.1 :=
      hnames c (mem_byName.1 hc)
    have hchild {c : String × Entry} (hc : c ∈ byName children) : c.2.Tidy :=
      htidy.child (mem_byName.1 hc)
    have hsorted := pairwise_lt_byName hnodup
    rw [walkEntry_dir, pairwise_append, pairwise_filterMap, pairwise_flatMap]
    refine ⟨?_, ⟨fun c hc => ?_, ?_⟩, fun x hx y hy => ?_⟩
    · refine hsorted.imp_of_mem fun {c d} hc hd hlt x hx y hy => ?_
      rw [parts_of_fileAt? (hname hc) hx, parts_of_fileAt? (hname hd) hy]
      exact (Before.files hlt).append p.parts
    · rw [WalkFilter.below, belowWith]
      split
      · exact ih c (mem_byName.1 hc) (hchild hc)
      · exact .nil
    · refine hsorted.imp_of_mem fun {c d} hc hd hlt x hx y hy => ?_
      obtain ⟨a, as, hx⟩ := parts_of_mem_below (hname hc) (hchild hc) hx
      obtain ⟨b, bs, hy⟩ := parts_of_mem_below (hname hd) (hchild hd) hy
      rw [hx, hy]
      exact (Before.dirs hlt).append p.parts
    · obtain ⟨c, hc, hx⟩ := mem_filterMap.1 hx
      obtain ⟨d, hd, hy⟩ := mem_flatMap.1 hy
      obtain ⟨b, bs, hy⟩ := parts_of_mem_below (hname hd) (hchild hd) hy
      rw [parts_of_fileAt? (hname hc) hx, hy]
      exact Before.filesFirst.append p.parts

theorem pairwise_before_walkProject (htidy : files.root.Tidy) (root : Path) :
    (walkProject w files root).Pairwise fun x y => Before x.path.parts y.path.parts := by
  cases hentry : files.entry? (files.resolve root) with
  | none =>
    rw [walkProject_of_no_entry hentry]
    exact .nil
  | some e =>
    obtain ⟨place, -, hat⟩ := Files.entry?_eq_some_iff.1 hentry
    rw [walkProject_of_entry hentry]
    exact pairwise_before_walkEntry (htidy.at? hat)

theorem mem_walkProject_iff (htidy : files.root.Tidy) {root : Path} : x ∈ walkProject w files root ↔
    ∃ e names, files.entry? (files.resolve root) = some e ∧ FoundIn e names ∧
      w.Enters files (files.resolve root) names ∧
      w.file? files ⟨true, (files.resolve root).parts ++ names⟩ = some x := by
  cases hentry : files.entry? (files.resolve root) with
  | none => simp [walkProject_of_no_entry hentry]
  | some e =>
    obtain ⟨place, -, hat⟩ := Files.entry?_eq_some_iff.1 hentry
    rw [walkProject_of_entry hentry, mem_walkEntry_iff (htidy.at? hat)]
    simp only [Option.some.injEq, exists_and_left, exists_eq_left']
    rfl

/-- A walk is ended by an entry that it comes by and cannot look at. -/
theorem exists_error_stops_iff (htidy : files.root.Tidy) {root : Path} :
    (∃ f, .error f ∈ stops w files root) ↔ ∃ e names, files.entry? (files.resolve root) = some e ∧
      FoundIn e names ∧ w.Enters files (files.resolve root) names ∧
      w.rules.Baffled files ⟨true, (files.resolve root).parts ++ names⟩ := by
  cases hentry : files.entry? (files.resolve root) with
  | none =>
    rw [stops]
    simp [hentry]
  | some e =>
    obtain ⟨place, -, hat⟩ := Files.entry?_eq_some_iff.1 hentry
    rw [stops_of_entry hentry, exists_error_mem_walkWith_iff (htidy.at? hat)]
    simp only [Option.some.injEq, exists_and_left, exists_eq_left']
    rfl

/-- **A walk gives exactly the eligible files, each once and in order, or it fails.** It fails
exactly if below the directory of the project, and not below an ignored one, there is something of
which the files cannot tell whether it is a directory; this is asked before anything else, also of
what is ignored. Otherwise it gives the entries, other than directories, that no ignored directory
stands above (a linked directory is no directory of the tree), and that lead to a file that is not
ignored, not too large and in a language that is wanted. -/
theorem walk_exact_in_order (w : WalkFilter) (files : Files) (htidy : files.root.Tidy)
    (root : Path) :
    ((∃ f, walk w files root = .error f) ↔ ∃ e names, files.entry? (files.resolve root) = some e ∧
      FoundIn e names ∧ w.Enters files (files.resolve root) names ∧
      w.rules.Baffled files ⟨true, (files.resolve root).parts ++ names⟩) ∧
    ∀ found, walk w files root = .ok found →
      (∀ x, x ∈ found ↔ ∃ e names size, files.entry? (files.resolve root) = some e ∧
        FoundIn e names ∧ w.Enters files (files.resolve root) names ∧
        x = ⟨⟨true, (files.resolve root).parts ++ names⟩, languageOf? x.path, size⟩ ∧
        files.size? x.path = some size ∧ w.rules.ignores files x.path = false ∧
        (size : Int) ≤ w.maxSizeKb * 1024 ∧
        ∀ wanted ∈ w.languages, ∃ l, languageOf? x.path = some l ∧ l.name ∈ wanted) ∧
      (found.map FileEntry.path).Nodup ∧
      found.Pairwise fun x y => Before x.path.parts y.path.parts := by
  refine ⟨exists_error_walk_iff.trans (exists_error_stops_iff htidy), ?_⟩
  intro found hfound
  obtain rfl := eq_walkProject_of_walk hfound
  have hordered := pairwise_before_walkProject (w := w) htidy root
  refine ⟨fun x => (mem_walkProject_iff htidy).trans ⟨?_, ?_⟩, pairwise_map.2 ?_, hordered⟩
  · rintro ⟨e, names, hentry, hnames, henters, hfile⟩
    obtain ⟨size, hsize, hignored, hadmits, rfl⟩ := file?_eq_some_iff.1 hfile
    exact ⟨e, names, size, hentry, hnames, henters, rfl, hsize, hignored, admits_iff.1 hadmits⟩
  · rintro ⟨e, names, size, hentry, hnames, henters, hx, hsize, hignored, hadmits⟩
    have hpath : x.path = ⟨true, (files.resolve root).parts ++ names⟩ := congrArg FileEntry.path hx
    rw [hpath] at hx hsize hignored hadmits
    exact ⟨e, names, hentry, hnames, henters,
      file?_eq_some_iff.2 ⟨size, hsize, hignored, admits_iff.2 hadmits, hx⟩⟩
  · refine hordered.imp fun hbefore heq => ?_
    rw [heq] at hbefore
    exact hbefore.irrefl

/-- A directory with a file in a directory and one beside it, a link to the directory itself, a
broken link and a link to a file. -/
def linkedTree : List (String × Entry) :=
  [("b", .dir [("a.py", .file "x")]), ("c", .link "."), ("gone", .link "nowhere"),
    ("l.py", .link "b/a.py"), ("z.py", .file "y")]

/-- A file, and something that cannot be looked at. -/
def hiddenTree : List (String × Entry) :=
  [("a.py", .file "x"), ("h.py", .closed .hidden)]

def treeFiles (children : List (String × Entry)) : Files :=
  ⟨.dir [("p", .dir children)]⟩

def openFilter : WalkFilter where
  rules := ⟨⟨true, ["p"]⟩, []⟩

theorem walk_linkedTree : walk openFilter (treeFiles linkedTree) ⟨true, ["p"]⟩ =
    .ok [⟨⟨true, ["p", "l.py"]⟩, languageOf? ⟨true, ["p", "l.py"]⟩, 1⟩,
      ⟨⟨true, ["p", "z.py"]⟩, languageOf? ⟨true, ["p", "z.py"]⟩, 1⟩,
      ⟨⟨true, ["p", "b", "a.py"]⟩, languageOf? ⟨true, ["p", "b", "a.py"]⟩, 1⟩] := by
  have hsorted : byName linkedTree = linkedTree := mergeSort_of_pairwise (by decide)
  have hone : byName [("a.py", Entry.file "x")] = [("a.py", .file "x")] := mergeSort_singleton _
  rw [walk_eq_ok_iff, stops_of_entry (e := .dir linkedTree) rfl, walkWith_dir, hsorted, linkedTree,
    flatMap_cons, belowWith, if_pos (by decide), walkWith_dir, hone]
  rfl

/-- The link to a file is found and comes before what the directory beside it holds; the broken link
is not found. What cannot be looked at ends a walk. -/
theorem walk_exact_in_order_trees :
    (treeFiles linkedTree).root.Tidy ∧
      (∃ found, walk openFilter (treeFiles linkedTree) ⟨true, ["p"]⟩ = .ok found ∧
        found.map FileEntry.path = [⟨true, ["p", "l.py"]⟩, ⟨true, ["p", "z.py"]⟩,
          ⟨true, ["p", "b", "a.py"]⟩] ∧
        found.Pairwise fun x y => Before x.path.parts y.path.parts) ∧
    (treeFiles hiddenTree).root.Tidy ∧ ∃ f,
      walk openFilter (treeFiles hiddenTree) ⟨true, ["p"]⟩ = .error f := by
  have hlinked : (treeFiles linkedTree).root.Tidy := Entry.tidy_of_allDirs (by decide)
  have hhidden : (treeFiles hiddenTree).root.Tidy := Entry.tidy_of_allDirs (by decide)
  obtain ⟨-, hfound⟩ := walk_exact_in_order openFilter (treeFiles linkedTree) hlinked ⟨true, ["p"]⟩
  obtain ⟨hfails, -⟩ := walk_exact_in_order openFilter (treeFiles hiddenTree) hhidden ⟨true, ["p"]⟩
  refine ⟨hlinked, ⟨_, walk_linkedTree, rfl, (hfound _ walk_linkedTree).2.2⟩, hhidden, hfails.2 ?_⟩
  exact ⟨.dir hiddenTree, ["h.py"], rfl, .here (by decide) rfl rfl, enters_singleton _ _ _ _,
    rfl, by decide, by decide⟩

end CodeAtlas
