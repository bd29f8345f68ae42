import Mathlib.Algebra.Order.Group.Multiset
import Mathlib.Tactic.Abel
import CodeAtlas.Proofs.Freshness

/-!
# When an updated index has the right edges

An update takes edges out by the identifiers of the nodes that go: an edge goes with either of its
ends. Calls, requests and definitions are at a node of the file that gave them, so they go with it.
An import starts at the identifier of the file itself, for which there is no node. So a file that is
touched leaves the edges of its old imports behind, changed or not. And an edge that another file
gave goes as well if it happens to be at a node that goes.
-/

namespace CodeAtlas.Index

open Host (SameSource)
open List

variable {t t' : Tracked} {h h' : Host} {config : Config} {root : Path} {paths all all' : List Path}
variable {fs : Files} {files : List String} {r : Readers}

/-- The edge starts or ends at one of the nodes. -/
def EdgeAt (nodes : List Node) (e : Edge) : Prop :=
  ∃ n ∈ nodes, n.id = e.source ∨ n.id = e.target

/-- Of the edges of a file, only imports can be at none of its nodes. -/
theorem edgeAt_of_mem_edges {p : Path} {e : Edge} (he : e ∈ (emissionAt r h root p).edges)
    (hrelation : e.relation ≠ .imports) : EdgeAt (emissionAt r h root p).nodes e := by
  rcases emissionAt_cases r h root p with hnone | ⟨l, file, parsed, -, hextract⟩
  · rw [hnone] at he
    cases he
  · have hgrounded := (l.grounded_extract file.toText parsed _ hextract).edges e he
    rw [append_nil, Extract.EdgeGrounded] at hgrounded
    split at hgrounded
    · obtain ⟨n, hn, hid⟩ := hgrounded
      exact ⟨n, hn, .inl hid⟩
    · obtain ⟨⟨n, hn, hid⟩, -⟩ := hgrounded
      exact ⟨n, hn, .inl hid⟩
    · obtain ⟨-, n, hn, hid⟩ := hgrounded
      exact ⟨n, hn, .inr hid⟩
    · next himports => exact absurd himports hrelation
    · exact absurd hgrounded not_false

instance (nodes : List Node) (e : Edge) : Decidable (EdgeAt nodes e) :=
  inferInstanceAs (Decidable (∃ n ∈ nodes, n.id = e.source ∨ n.id = e.target))

/-- The edges that stay behind when the nodes of `own` are taken out: of those that came with these
nodes, and of those that were stale already. -/
def leftover (own : Graph) (stale : List Edge) : List Edge :=
  (own.edges ++ stale).filter fun e => !decide (EdgeAt own.nodes e)

/-- The edges that are missing when the nodes of `own` are taken out: those that others gave and
that go with such a node, and those that were missing already, unless they are at such a node and so
are counted anew. -/
def missing (own others : Graph) (lost : List Edge) : List Edge :=
  others.edges.filter (fun e => decide (EdgeAt own.nodes e)) ++
    lost.filter fun e => !decide (EdgeAt own.nodes e)

def given (config : Config) (h : Host) (root : Path) (paths : List Path) : Graph :=
  (readFiles config h root paths).toOption.elim ⟨[], []⟩ (·.1)

theorem given_eq_graphAt (hr : Readers.ofNames config.parsing.languages = .ok r)
    (hreadable : ∀ p ∈ paths, Readable r h root p) :
    given config h root paths = graphAt r h root paths := by
  obtain ⟨errors, hread⟩ := (readFiles_eq_ok_iff hr).2 ⟨hreadable, rfl⟩
  rw [given, hread]
  rfl

def touchedGraph (config : Config) (h : Host) (root : Path) (all paths : List Path) : Graph :=
  given config h root (all.filter paths.contains)

def untouchedGraph (config : Config) (h : Host) (root : Path) (all paths : List Path) : Graph :=
  given config h root (all.filter fun p => !paths.contains p)

theorem touchedGraph_eq (hr : Readers.ofNames config.parsing.languages = .ok r)
    (hreadable : ∀ p ∈ all, Readable r h root p) :
    touchedGraph config h root all paths = graphAt r h root (all.filter paths.contains) :=
  given_eq_graphAt hr fun p hp => hreadable p (mem_filter.1 hp).1

theorem untouchedGraph_eq (hr : Readers.ofNames config.parsing.languages = .ok r)
    (hreadable : ∀ p ∈ all, Readable r h root p) :
    untouchedGraph config h root all paths = graphAt r h root
      (all.filter fun p => !paths.contains p) :=
  given_eq_graphAt hr fun p hp => hreadable p (mem_filter.1 hp).1

theorem imports_of_mem_leftover {touched : List Path} {stale : List Edge}
    (hstale : ∀ e ∈ stale, e.relation = .imports) :
    ∀ e ∈ leftover (graphAt r h root touched) stale, e.relation = .imports := by
  intro e he
  obtain ⟨he, hleft⟩ := mem_filter.1 he
  rcases mem_append.1 he with he | he
  · -- any other edge is at a node of the file that gave it
    by_contra hrelation
    obtain ⟨p, hp, hep⟩ := mem_flatMap.1 he
    obtain ⟨n, hn, hid⟩ := edgeAt_of_mem_edges hep hrelation
    have hat : EdgeAt (graphAt r h root touched).nodes e := ⟨n, mem_flatMap.2 ⟨p, hp, hn⟩, hid⟩
    simp [hat] at hleft
  · exact hstale e he

/-! ## One update

Edges go with the nodes that they are at. What is lost or left over so is entered in two
accounts. -/

/-- Double entry: a list that is right up to its accounts is sifted and added to. What was sifted
out of what it had to hold and what was added go on the one side, what stays of its surplus on the
other. -/
theorem sift_perm {α : Type} (keep : α → Bool) {xs lost right extra : List α} (fresh : List α)
    (hperm : (xs ++ lost).Perm (right ++ extra)) :
    ((xs.filter keep ++ fresh) ++ (right.filter (fun x => !keep x) ++ lost.filter keep)).Perm
      ((right ++ fresh) ++ extra.filter keep) := by
  have hkept := hperm.filter keep
  have hright := filter_append_perm keep right
  rw [filter_append, filter_append] at hkept
  simp only [← Multiset.coe_eq_coe, ← Multiset.coe_add] at hkept hright ⊢
  calc ((xs.filter keep : Multiset α) + fresh) + ((right.filter fun x => !keep x : List α) +
    lost.filter keep)
    _ = (xs.filter keep + lost.filter keep) + ((right.filter fun x => !keep x : List α) +
      fresh) := by abel
    _ = ((right.filter keep : Multiset α) + (right.filter fun x => !keep x : List α)) + fresh +
      extra.filter keep := by
      rw [hkept]
      abel
    _ = right + fresh + extra.filter keep := by rw [hright]

theorem flatMap_perm_split {α : Type} (f : Path → List α) (all paths : List Path) :
    (all.flatMap f).Perm ((all.filter fun p => !paths.contains p).flatMap f ++
      (all.filter paths.contains).flatMap f) := by
  rw [← flatMap_append]
  have hsplit := filter_append_perm (fun p => !paths.contains p) all
  simp only [Bool.not_not] at hsplit
  exact hsplit.symm.flatMap_right f

/-- The identifiers that are dropped with some files are those of the nodes that these files
gave. -/
theorem mem_idsOf_iff (ht : t.Owned) (hnodes : t.graph.nodes.Perm (graphAt r h root all).nodes)
    (hfiles : filesBelow root fs paths = .ok files) (hclean : ∀ p ∈ all ++ paths, p.Clean)
    {id : String} :
    id ∈ t.idsOf files ↔ ∃ n ∈ (graphAt r h root (all.filter paths.contains)).nodes, n.id = id := by
  have hpaths : ∀ p ∈ paths, p.Clean := fun p hp => hclean p (mem_append_right all hp)
  rw [ht.mem_idsOf]
  constructor
  · rintro ⟨n, hn, hfile, rfl⟩
    obtain ⟨p, hp, hn⟩ := mem_flatMap.1 (hnodes.mem_iff.1 hn)
    have hin := (file_mem_iff hfiles hpaths (hclean p (mem_append_left paths hp)) hn).1 hfile
    exact ⟨n, mem_flatMap.2 ⟨p, mem_filter.2 ⟨hp, by simpa using hin⟩, hn⟩, rfl⟩
  · rintro ⟨n, hn, rfl⟩
    obtain ⟨p, hp, hn⟩ := mem_flatMap.1 hn
    obtain ⟨hp, hin⟩ := mem_filter.1 hp
    refine ⟨n, hnodes.mem_iff.2 (mem_flatMap.2 ⟨p, hp, hn⟩), ?_, rfl⟩
    exact (file_mem_iff hfiles hpaths (hclean p (mem_append_left paths hp)) hn).2
      (by simpa using hin)

theorem keep_eq (ht : t.Owned) (hnodes : t.graph.nodes.Perm (graphAt r h root all).nodes)
    (hfiles : filesBelow root fs paths = .ok files) (hclean : ∀ p ∈ all ++ paths, p.Clean)
    (e : Edge) :
    (!(t.idsOf files).contains e.source && !(t.idsOf files).contains e.target) =
      !decide (EdgeAt (graphAt r h root (all.filter paths.contains)).nodes e) := by
  have hids : ∀ id, (t.idsOf files).contains id ↔
      ∃ n ∈ (graphAt r h root (all.filter paths.contains)).nodes, n.id = id := by
    intro id
    rw [contains_iff_mem, mem_idsOf_iff ht hnodes hfiles hclean]
  rw [← Bool.not_or]
  congr 1
  rw [Bool.eq_iff_iff, Bool.or_eq_true, decide_eq_true_iff, hids, hids]
  constructor
  · rintro (⟨n, hn, hid⟩ | ⟨n, hn, hid⟩)
    · exact ⟨n, hn, .inl hid⟩
    · exact ⟨n, hn, .inr hid⟩
  · rintro ⟨n, hn, hid | hid⟩
    · exact .inl ⟨n, hn, hid⟩
    · exact .inr ⟨n, hn, hid⟩

/-- The account of one update: what is left of the edges, the edges that are missing and the edges
that are new. -/
theorem edges_drop_perm {stale lost : List Edge} (ht : t.Owned)
    (hnodes : t.graph.nodes.Perm (graphAt r h root all).nodes)
    (hedges : (t.graph.edges ++ lost).Perm ((graphAt r h root all).edges ++ stale))
    (hfiles : filesBelow root fs paths = .ok files) (hclean : ∀ p ∈ all ++ paths, p.Clean)
    (fresh : List Edge) :
    (((t.drop files).graph.edges ++ fresh) ++
        missing (graphAt r h root (all.filter paths.contains))
          (graphAt r h root (all.filter fun p => !paths.contains p)) lost).Perm
      (((graphAt r h root (all.filter fun p => !paths.contains p)).edges ++ fresh) ++
        leftover (graphAt r h root (all.filter paths.contains)) stale) := by
  have hsplit := hedges.trans ((flatMap_perm_split _ all paths).append_right stale)
  rw [append_assoc] at hsplit
  have hsift := sift_perm
    (fun e => !decide (EdgeAt (graphAt r h root (all.filter paths.contains)).nodes e)) fresh hsplit
  simp only [Bool.not_not] at hsift
  show ((t.graph.edges.filter _ ++ fresh) ++ _).Perm _
  simp only [keep_eq ht hnodes hfiles hclean]
  exact hsift

/-- No identifier occurs in two files. -/
def Unambiguous (nodes : List Node) : Prop :=
  ∀ n ∈ nodes, ∀ m ∈ nodes, m.id = n.id → m.loc.file = n.loc.file

instance (nodes : List Node) : Decidable (Unambiguous nodes) :=
  inferInstanceAs (Decidable (∀ n ∈ nodes, ∀ m ∈ nodes, m.id = n.id → m.loc.file = n.loc.file))

theorem Unambiguous.unshared {nodes : List Node} (hids : Unambiguous nodes) (files : List String) :
    Unshared files nodes := by
  intro n hn hfile m hm hout heq
  rw [hids n hn m hm heq] at hout
  exact hout hfile

theorem Unambiguous.perm {nodes nodes' : List Node} (hids : Unambiguous nodes)
    (hperm : nodes'.Perm nodes) : Unambiguous nodes' :=
  fun n hn m hm => hids n (hperm.mem_iff.1 hn) m (hperm.mem_iff.1 hm)

/-- The index follows the files of a project: it holds the nodes that they give, up to order, each
file with its own, and the edges that they give with those of `stale` too many and those of `lost`
too few. No identifier occurs in two files. -/
structure Follows (config : Config) (h : Host) (root : Path) (all : List Path) (t : Tracked)
    (stale lost : List Edge) :
    Prop where
  owned : t.Owned
  unambiguous : Unambiguous t.graph.nodes
  graph : ∃ g errors, readFiles config h root all = .ok (g, errors) ∧ t.graph.nodes.Perm g.nodes ∧
    (t.graph.edges ++ lost).Perm (g.edges ++ stale)

/-- **One update.** It returns, and the index follows the files as they are now. -/
theorem Follows.update {stale lost : List Edge} (ht : Follows config h root all t stale lost)
    (catalog? : Option Vector.Catalog) (hedit : Edited paths h h' all all')
    (hfiles : filesBelow root h'.files paths = .ok files)
    {g' : Graph} {errors' : List String} (hread : readFiles config h' root all' = .ok (g', errors'))
    (hids : Unambiguous g'.nodes) :
    ∃ u t' h'', (update root config catalog? paths).run.run (t, h') = (.ok u, (t', h'')) ∧
      SameSource h' h'' ∧
      Follows config h'' root all' t' (leftover (touchedGraph config h root all paths) stale)
        (missing (touchedGraph config h root all paths) (untouchedGraph config h root all paths)
          lost) := by
  obtain ⟨g, errors, hreadAll, hnodes, hedges⟩ := ht.graph
  obtain ⟨r, hr⟩ := ofNames_of_readFiles hread
  obtain ⟨hreadable, rfl⟩ := (readFiles_eq_ok_iff hr).1 ⟨errors', hread⟩
  obtain ⟨hreadableAll, rfl⟩ := (readFiles_eq_ok_iff hr).1 ⟨errors, hreadAll⟩
  obtain ⟨u, h'', hsame, hrun⟩ := hedit.update_returns hr hreadable hfiles catalog? t
  -- nodes: what the untouched files gave is left, and what the touched files give was added
  have hnodes' : ((t.drop files).add (graphAt r h' root paths)).graph.nodes.Perm
      (graphAt r h' root all').nodes := by
    have hfresh := hedit.flatMap_perm r root (f := (·.nodes)) rfl
    have hkept : (t.drop files).graph.nodes.Perm (graphAt r h root
        (all.filter fun p => !paths.contains p)).nodes := by
      rw [ht.owned.drop_nodes_of_unshared (ht.unambiguous.unshared files),
        ← elsewhere_graphAt hfiles hedit.clean]
      exact hnodes.filter _
    exact (hkept.append_right _).trans hfresh.symm
  refine ⟨u, _, h'', hrun, hsame, ht.owned.replace (ht.unambiguous.unshared files) _,
    hids.perm hnodes', _, errors', (readFiles_of_sameSource hsame).trans hread, hnodes', ?_⟩
  have hfresh := hedit.flatMap_perm r root (f := (·.edges)) rfl
  rw [touchedGraph_eq hr hreadableAll, untouchedGraph_eq hr hreadableAll]
  have haccount :=
    edges_drop_perm ht.owned hnodes hedges hfiles hedit.clean (graphAt r h' root paths).edges
  exact haccount.trans (hfresh.symm.append_right _)

/-- An index of a project that was read once and has been updated since, batch by batch, and the
accounts of its edges. Each batch names all files that changed since the one before, and returned.
In no state of the project did an identifier occur in two files. -/
inductive Maintained (config : Config) (root : Path) (catalog? : Option Vector.Catalog) :
    Host → List Path → Tracked → List Edge → List Edge → Prop
  | read {h : Host} {all : List Path} {g : Graph} {errors : List String}
      (hread : readFiles config h root all = .ok (g, errors)) (hids : Unambiguous g.nodes) :
      Maintained config root catalog? h all (.ofGraph g) [] []
  | batch {h h' h'' : Host} {all all' paths : List Path} {t t' : Tracked} {stale lost : List Edge}
      {u : Update}
      {g : Graph} {errors : List String} (hs : Maintained config root catalog? h all t stale lost)
      (hedit : Edited paths h h' all all') (hread : readFiles config h' root all' = .ok (g, errors))
      (hids : Unambiguous g.nodes)
      (hrun : (update root config catalog? paths).run.run (t, h') = (.ok u, (t', h''))) :
      Maintained config root catalog? h'' all' t'
        (leftover (touchedGraph config h root all paths) stale)
        (missing (touchedGraph config h root all paths) (untouchedGraph config h root all paths)
          lost)

namespace Maintained

variable {catalog? : Option Vector.Catalog} {stale lost : List Edge}

theorem follows (hs : Maintained config root catalog? h all t stale lost) :
    Follows config h root all t stale lost := by
  induction hs with
  | @read h all g errors hread hids =>
    refine ⟨Tracked.owned_ofGraph _, hids, g, errors, hread, .refl _, ?_⟩
    rw [append_nil, append_nil]
    exact .refl _
  | @batch h h' h'' all all' paths t t' stale lost u g errors hs hedit hread hids hrun ih =>
    obtain ⟨files, -, -, hfiles, -⟩ := update_eq_ok hrun
    obtain ⟨u₁, t₁, h₁, hrun₁, -, hfollows⟩ := ih.update catalog? hedit hfiles hread hids
    rw [hrun] at hrun₁
    obtain ⟨rfl, rfl⟩ := Prod.mk.inj (Prod.mk.inj hrun₁).2
    exact hfollows

theorem imports_of_mem_stale (hs : Maintained config root catalog? h all t stale lost) :
    ∀ e ∈ stale, e.relation = .imports := by
  induction hs with
  | read => simp
  | batch hs hedit hread hids hrun ih =>
    obtain ⟨g, errors, hreadAll, -, -⟩ := hs.follows.graph
    obtain ⟨r, hr⟩ := ofNames_of_readFiles hreadAll
    obtain ⟨hreadable, -⟩ := (readFiles_eq_ok_iff hr).1 ⟨errors, hreadAll⟩
    rw [touchedGraph_eq hr hreadable]
    exact imports_of_mem_leftover ih

end Maintained

/-- With two accounts, a list is right exactly if they cancel out. -/
theorem perm_iff_of_accounts {α : Type} {xs ys lost stale : List α}
    (h : (xs ++ lost).Perm (ys ++ stale)) : xs.Perm ys ↔ stale.Perm lost := by
  constructor
  · intro hxs
    exact (perm_append_left_iff ys).1 (h.symm.trans (hxs.append_right lost))
  · intro hlost
    exact (perm_append_right_iff lost).1 (h.trans (hlost.append_left ys))

/-- **Which edges an index has after any number of updates.** They are, up to order, the edges that
the files of the project give, with the stale ones too many and the lost ones too few; so they are
exactly those that the files give if and only if both accounts cancel out. All stale edges are
imports. The next batch returns, and goes on with these accounts: an edge of a touched file turns
stale if it is at none of the nodes of the touched files, and an edge of another file is lost if it
is at one of them. -/
theorem maintained_edges_exact_iff {catalog? : Option Vector.Catalog} {stale lost : List Edge}
    (hs : Maintained config root catalog? h all t stale lost) :
    (∃ g errors, readFiles config h root all = .ok (g, errors) ∧
      (t.graph.edges ++ lost).Perm (g.edges ++ stale) ∧
        (t.graph.edges.Perm g.edges ↔ stale.Perm lost)) ∧
    (∀ e ∈ stale, e.relation = .imports) ∧
    ∀ paths h' all' files g' errors', Edited paths h h' all all' →
      filesBelow root h'.files paths = .ok files →
      readFiles config h' root all' = .ok (g', errors') → Unambiguous g'.nodes →
        ∃ u t' h'', (update root config catalog? paths).run.run (t, h') = (.ok u, (t', h'')) ∧
          Maintained config root catalog? h'' all' t'
            (leftover (touchedGraph config h root all paths) stale)
            (missing (touchedGraph config h root all paths) (untouchedGraph config h root all paths)
              lost) ∧
          (t'.graph.edges.Perm g'.edges ↔
            (leftover (touchedGraph config h root all paths) stale).Perm
              (missing (touchedGraph config h root all paths)
                (untouchedGraph config h root all paths) lost)) := by
  have hfollows := hs.follows
  refine ⟨?_, hs.imports_of_mem_stale, ?_⟩
  · obtain ⟨g, errors, hread, -, hedges⟩ := hfollows.graph
    exact ⟨g, errors, hread, hedges, perm_iff_of_accounts hedges⟩
  · intro paths h' all' files g' errors' hedit hfiles hread hids
    obtain ⟨u, t', h'', hrun, hsame, hfollows'⟩ := hfollows.update catalog? hedit hfiles hread hids
    obtain ⟨g₁, errors₁, hread₁, -, hedges⟩ := hfollows'.graph
    rw [readFiles_of_sameSource hsame, hread] at hread₁
    obtain rfl := (Prod.mk.inj (Except.ok.inj hread₁)).1
    exact ⟨u, t', h'', hrun, hs.batch hedit hread hids hrun, perm_iff_of_accounts hedges⟩

/-! ### A file that imports something and one that does not

Both files are saved once more, neither of them changed. The edges stay right for the one that makes
a call. For the one with an import they do not: its edge is there twice. -/

def importer : Host where
  files := ⟨.dir [("p", .dir [("a.py", .file "import os"), ("b.py", .file "def f(): g()")])]⟩
  grammar :=
    ⟨[((.python, "import os"),
      .node "module" 0 9 [.node "import_statement" 0 9 [.node "dotted_name" 7 9 []]]),
      ((.python, "def f(): g()"), .node "module" 0 12 [.node "function_definition" 0 12 [
        .node "identifier" 4 5 [],
        .node "parameters" 5 7 [],
        .node "block" 9 12 [.node "call" 9 12 [.node "identifier" 9 10 [],
          .node "argument_list" 10 12 []]]]])]⟩

def importerConfig : Config := { parsing := { languages := ["python"] } }

def importerFiles : List Path := [scriptPath "a.py", scriptPath "b.py"]

theorem edited_importer {p : Path} (hp : p ∈ importerFiles) :
    Edited [p] importer importer importerFiles importerFiles := by
  have hclean : ∀ q ∈ importerFiles, q.Clean := by decide
  have hholds : ∀ q ∈ importerFiles, importer.files.holds q := by decide +kernel
  refine ⟨rfl, ⟨by decide, by decide, by simp⟩, ?_, fun q hq _ => ⟨hq, rfl⟩, fun q hq _ => hq, ?_⟩
  · intro q hq
    rcases mem_append.1 hq with hq | hq
    · exact hclean q hq
    · rw [mem_singleton.1 hq]
      exact hclean p hp
  · intro q hq
    rw [mem_singleton.1 hq]
    exact ⟨fun _ => hholds p hp, fun _ => hp⟩

def importerLeftover (name : String) : List Edge :=
  leftover (touchedGraph importerConfig importer scriptRoot importerFiles [scriptPath name]) []

def importerMissing (name : String) : List Edge :=
  missing (touchedGraph importerConfig importer scriptRoot importerFiles [scriptPath name])
    (untouchedGraph importerConfig importer scriptRoot importerFiles [scriptPath name]) []

theorem maintained_edges_exact_iff_importer :
    ∃ g errors, readFiles importerConfig importer scriptRoot importerFiles = .ok (g, errors) ∧
      Maintained importerConfig scriptRoot none importer importerFiles (.ofGraph g) [] [] ∧
      (∃ u t h, (update scriptRoot importerConfig none [scriptPath "b.py"]).run.run
        (.ofGraph g, importer) = (.ok u, (t, h)) ∧ t.graph.edges.Perm g.edges) ∧
      ∃ u t h, (update scriptRoot importerConfig none [scriptPath "a.py"]).run.run
        (.ofGraph g, importer) = (.ok u, (t, h)) ∧ ¬ t.graph.edges.Perm g.edges := by
  have hread : (readFiles importerConfig importer scriptRoot importerFiles).toOption.map
      (fun o => decide (Unambiguous o.1.nodes)) = some true := by decide +kernel
  have hlengths : ((importerLeftover "b.py").length = 0 ∧ (importerMissing "b.py").length = 0) ∧
      (importerLeftover "a.py").length ≠ (importerMissing "a.py").length := by decide +kernel
  obtain ⟨⟨g, errors⟩, hread, hids⟩ := Option.map_eq_some_iff.1 hread
  have hread : readFiles importerConfig importer scriptRoot importerFiles = .ok (g, errors) :=
    eq_ok_of_toOption hread
  have hids : Unambiguous g.nodes := of_decide_eq_true hids
  have hs : Maintained importerConfig scriptRoot none importer importerFiles (.ofGraph g) [] [] :=
    .read hread hids
  obtain ⟨-, -, hnext⟩ := maintained_edges_exact_iff hs
  refine ⟨g, errors, hread, hs, ?_, ?_⟩
  · obtain ⟨u, t, h, hrun, -, hiff⟩ :=
      hnext [scriptPath "b.py"] importer importerFiles ["b.py"] g errors
        (edited_importer (by decide)) rfl hread hids
    have hcancel : (importerLeftover "b.py").Perm (importerMissing "b.py") := by
      rw [eq_nil_of_length_eq_zero hlengths.1.1, eq_nil_of_length_eq_zero hlengths.1.2]
    exact ⟨u, t, h, hrun, hiff.2 hcancel⟩
  · obtain ⟨u, t, h, hrun, -, hiff⟩ :=
      hnext [scriptPath "a.py"] importer importerFiles ["a.py"] g errors
        (edited_importer (by decide)) rfl hread hids
    exact ⟨u, t, h, hrun, fun hperm => hlengths.2 (hiff.1 hperm).length_eq⟩

end CodeAtlas.Index
