import Mathlib.Data.List.Basic
import CodeAtlas.Proofs.Update

/-!
# No stale symbols after any number of updates

An index starts from any graph and is then updated batch by batch, with anything happening to the
files in between. Nodes go out by their identifiers, which several files may share, so a batch may
take more than the nodes of its own files. It never takes less.

* **`update_eq_ok`** says what an update that returned has done.
* **`Tracked.Listed`** is the invariant of the index alone: every node is listed under its own file,
  so a file that is dropped takes all its nodes along (`Listed.file_of_mem_drop`).
* **`Run.fresh`** follows batch by batch: a node is either new, and then the batch has just read it,
  or it stands in a file that the batch did not touch.
-/

namespace CodeAtlas.Index

open List

variable {t t' : Tracked} {h h' : Host} {config : Config} {root : Path} {paths : List Path}
  {fs : Files} {files : List String}

/-- What an update that returned has done. -/
theorem update_eq_ok {catalog? : Option Vector.Catalog} {u : Update}
    (hrun : (update root config catalog? paths).run.run (t, h) = (.ok u, (t', h'))) :
    ∃ files g errors, filesBelow root h.files paths = .ok files ∧ readFiles config h root paths =
      .ok (g, errors) ∧ t' = (t.drop files).add g ∧ u.added = g.nodes.length ∧
      u.removed = (t.graph.nodes.filter fun n => (t.idsOf files).contains n.id).length := by
  obtain ⟨h₁, -, hrun₁⟩ := update_run root config catalog? paths t h
  rw [hrun] at hrun₁
  cases hfiles : filesBelow root h.files paths with
  | error f =>
    rw [hfiles] at hrun₁
    cases (Prod.mk.inj hrun₁).1
  | ok files =>
    rw [hfiles] at hrun₁
    dsimp only at hrun₁
    split at hrun₁
    · cases (Prod.mk.inj hrun₁).1
    · next g errors hread =>
      obtain ⟨hu, hstate⟩ := Prod.mk.inj hrun₁
      obtain rfl := Except.ok.inj hu
      exact ⟨files, g, errors, rfl, hread, (Prod.mk.inj hstate).1, rfl, rfl⟩

theorem exists_path_of_mem {g : Graph} {errors : List String}
    (hread : readFiles config h root paths = .ok (g, errors)) {n : Node} (hn : n ∈ g.nodes) :
    ∃ p ∈ paths, h.files.holds p ∧ fileBelow root p = .ok n.loc.file ∧
      ∃ g' errors', readFiles config h root [p] = .ok (g', errors') ∧ n ∈ g'.nodes := by
  obtain ⟨r, hr⟩ := ofNames_of_readFiles hread
  obtain ⟨hreadable, rfl⟩ := (readFiles_eq_ok_iff hr).1 ⟨errors, hread⟩
  obtain ⟨p, hp, hn⟩ := mem_flatMap.1 hn
  refine ⟨p, hp, ?_, ?_, ?_⟩
  · by_contra hholds
    rw [emissionAt_of_content?_eq_none (Files.content?_of_not_holds hholds)] at hn
    exact absurd hn not_mem_nil
  · obtain ⟨q, hq, hfile⟩ := file_of_mem_emissionAt hn
    exact fileBelow_eq_ok_iff.2 ⟨q, hq, hfile.symm⟩
  · have hone : ∀ q ∈ [p], Readable r h root q := by
      intro q hq
      rw [mem_singleton.1 hq]
      exact hreadable p hp
    obtain ⟨errors', hread'⟩ := (readFiles_eq_ok_iff hr).2 ⟨hone, rfl⟩
    refine ⟨_, errors', hread', ?_⟩
    simpa [graphAt] using hn

theorem mem_filesBelow_iff (hfiles : filesBelow root fs paths = .ok files) {f : String} :
    f ∈ files ↔ ∃ p ∈ paths, fileBelow root p = .ok f := by
  obtain ⟨hmap, -⟩ := filesBelow_eq_ok_iff.1 hfiles
  have hmem : f ∈ files ↔ Except.ok f ∈ paths.map (fileBelow root) := by
    rw [hmap]
    simp
  rw [hmem, mem_map]

theorem within_of_readFiles (hfiles : filesBelow root fs paths = .ok files) {g : Graph}
    {errors : List String}
    (hread : readFiles config h root paths = .ok (g, errors)) : Within files g.nodes := by
  intro n hn
  obtain ⟨p, hp, -, hfile, -⟩ := exists_path_of_mem hread hn
  exact (mem_filesBelow_iff hfiles).2 ⟨p, hp, hfile⟩

/-- Every file is remembered with the identifier of each of its nodes, and perhaps with others. -/
def Tracked.Listed (t : Tracked) : Prop :=
  ∀ n ∈ t.graph.nodes, n.id ∈ (t.owners.get? n.loc.file).getD []

theorem Tracked.Owned.listed (ht : t.Owned) : t.Listed := by
  intro n hn
  rw [ht n.loc.file]
  exact mem_map.2 ⟨n, mem_filter.2 ⟨hn, by simp⟩, rfl⟩

namespace Tracked.Listed

theorem file_of_mem_drop (ht : t.Listed) {n : Node} (hn : n ∈ (t.drop files).graph.nodes) :
    n.loc.file ∉ files := by
  intro hfile
  obtain ⟨hn, hid⟩ := mem_filter.1 hn
  have hdropped : n.id ∈ t.idsOf files := mem_flatMap.2 ⟨n.loc.file, hfile, ht n hn⟩
  simp [hdropped] at hid

theorem drop (ht : t.Listed) (files : List String) : (t.drop files).Listed := by
  intro n hn
  have hfile := ht.file_of_mem_drop hn
  show n.id ∈ ((files.foldl OrderedMap.erase t.owners).get? n.loc.file).getD []
  rw [OrderedMap.get?_foldl_erase, if_neg hfile]
  exact ht n (mem_filter.1 hn).1

theorem add (ht : t.Listed) (g : Graph) : (t.add g).Listed := by
  intro n hn
  show n.id ∈ ((addOwners t.owners g.nodes).get? n.loc.file).getD []
  rw [ids_addOwners, mem_append]
  rcases mem_append.1 hn with hn | hn
  · exact .inl (ht n hn)
  · exact .inr (mem_map.2 ⟨n, mem_filter.2 ⟨hn, by simp⟩, rfl⟩)

theorem filter_replace (ht : t.Listed) {g : Graph} (hg : Within files g.nodes) :
    ((t.drop files).add g).graph.nodes.filter (fun n => files.contains n.loc.file) = g.nodes := by
  have hold : (t.drop files).graph.nodes.filter (fun n => files.contains n.loc.file) = [] := by
    rw [filter_eq_nil_iff]
    intro n hn
    simp [ht.file_of_mem_drop hn]
  have hnew : g.nodes.filter (fun n => files.contains n.loc.file) = g.nodes := by
    rw [filter_eq_self]
    intro n hn
    simp [hg n hn]
  show ((t.drop files).graph.nodes ++ g.nodes).filter _ = g.nodes
  rw [filter_append, hold, hnew, nil_append]

end Tracked.Listed

theorem length_replace (t : Tracked) (files : List String) (g : Graph) :
    ((t.drop files).add g).graph.nodes.length + (t.graph.nodes.filter fun n =>
      (t.idsOf files).contains n.id).length =
      t.graph.nodes.length + g.nodes.length := by
  have hparts :=
    length_eq_length_filter_add (l := t.graph.nodes) fun n => (t.idsOf files).contains n.id
  show ((t.graph.nodes.filter fun n => !(t.idsOf files).contains n.id) ++ g.nodes).length + _ = _
  rw [length_append]
  omega

/-! ## Batch after batch

The step and the run: each batch keeps fresh what it does not touch. -/

/-- Paths that changed or were deleted, and the settings and the host with which the index is
updated. -/
structure Batch where
  config : Config
  catalog : Option Vector.Catalog := none
  paths : List Path
  host : Host

def Batch.update (root : Path) (b : Batch) (t : Tracked) : Except Failure Update × Tracked × Host :=
  (Index.update root b.config b.catalog b.paths).run.run (t, b.host)

def Batch.touches (root : Path) (b : Batch) (file : String) : Bool :=
  b.paths.any fun p => (fileBelow root p).toOption == some file

/-- A file of a batch was there, and reading it gave the node. -/
def Batch.Gave (root : Path) (b : Batch) (n : Node) : Prop :=
  ∃ p ∈ b.paths, fileBelow root p = .ok n.loc.file ∧ b.host.files.holds p ∧
    ∃ g errors, readFiles b.config b.host root [p] = .ok (g, errors) ∧ n ∈ g.nodes

/-- The last of some batches that touched a file. -/
def latest? (root : Path) (past : List Batch) (file : String) : Option Batch :=
  past.find? fun b => b.touches root file

/-- The index after some batches, each of which returned. It starts from a graph and the files of
its nodes; the latest batch comes first. -/
inductive Run (root : Path) (g : Graph) : List Batch → Tracked → Prop
  | start : Run root g [] (.ofGraph g)
  | batch {past : List Batch} {t t' : Tracked} {u : Update} {h : Host} (hs : Run root g past t)
      (b : Batch) (hrun : b.update root t = (.ok u, t', h)) : Run root g (b :: past) t'

theorem Batch.touches_iff {b : Batch} (hfiles : filesBelow root fs b.paths = .ok files)
    {f : String} : b.touches root f ↔ f ∈ files := by
  rw [mem_filesBelow_iff hfiles, Batch.touches, any_eq_true]
  refine exists_congr fun p => and_congr_right fun _ => ?_
  cases fileBelow root p <;> simp [Except.toOption]

namespace Run

variable {g : Graph} {past : List Batch}

theorem listed (hs : Run root g past t) : t.Listed := by
  induction hs with
  | start => exact (Tracked.owned_ofGraph g).listed
  | batch _ b hrun ih =>
    obtain ⟨files, g', errors, -, -, rfl, -, -⟩ := update_eq_ok hrun
    exact (ih.drop files).add g'

/-- A node is either new, and then the last batch has just read it, or it stands in a file that this
batch did not touch. -/
theorem fresh (hs : Run root g past t) :
    ∀ n ∈ t.graph.nodes, ∀ b, latest? root past n.loc.file = some b → b.Gave root n := by
  induction hs with
  | start =>
    intro n _ b hb
    simp [latest?] at hb
  | @batch past t t' u h hs b hrun ih =>
    obtain ⟨files, g', errors, hfiles, hread, rfl, -, -⟩ := update_eq_ok hrun
    intro n hn b' hb'
    rw [latest?, find?_cons] at hb'
    rcases mem_append.1 hn with hn | hn
    · -- an old node stands in a file that the batch did not touch
      have hfile : n.loc.file ∉ files := hs.listed.file_of_mem_drop hn
      have htouches : b.touches root n.loc.file = false := by
        rw [Bool.eq_false_iff, Ne, Batch.touches_iff hfiles]
        exact hfile
      rw [htouches] at hb'
      exact ih n (mem_filter.1 hn).1 b' hb'
    · -- a new node was read off a file of the batch
      obtain ⟨p, hp, hholds, hfile, hgave⟩ := exists_path_of_mem hread hn
      have htouches : b.touches root n.loc.file :=
        (Batch.touches_iff hfiles).2 ((mem_filesBelow_iff hfiles).2 ⟨p, hp, hfile⟩)
      rw [htouches] at hb'
      obtain rfl := Option.some.inj hb'
      exact ⟨p, hp, hfile, hholds, hgave⟩

end Run

/-- **An updated index holds no stale symbols.** Take any graph and any sequence of batches that
returned. Every node whose file was touched was given by that file when it was last touched; so none
is left of a file that was then gone or could not be read. Every node is listed under its own file.
And the next batch that returns reports how many nodes were added and removed: these account for the
length of the list, and the nodes of the touched files are afterwards the ones that were read off
them. -/
theorem run_leaves_no_stale_nodes {g : Graph} {past : List Batch} (hs : Run root g past t) :
    (∀ n ∈ t.graph.nodes, ∀ b, latest? root past n.loc.file = some b → b.Gave root n) ∧
      (∀ n ∈ t.graph.nodes, ∃ ids, t.owners.get? n.loc.file = some ids ∧ n.id ∈ ids) ∧
      ∀ (b : Batch) u t' h', b.update root t = (.ok u, t', h') →
        t'.graph.nodes.length + u.removed = t.graph.nodes.length + u.added ∧
          ∃ g' errors, readFiles b.config b.host root b.paths = .ok (g', errors) ∧
            u.added = g'.nodes.length ∧
            t'.graph.nodes.filter (fun n => b.touches root n.loc.file) = g'.nodes := by
  refine ⟨hs.fresh, ?_, ?_⟩
  · intro n hn
    have hid := hs.listed n hn
    cases hids : t.owners.get? n.loc.file with
    | none =>
      rw [hids] at hid
      exact absurd hid not_mem_nil
    | some ids =>
      rw [hids] at hid
      exact ⟨ids, rfl, hid⟩
  · intro b u t' h' hrun
    obtain ⟨files, g', errors, hfiles, hread, rfl, hadded, hremoved⟩ := update_eq_ok hrun
    refine ⟨?_, g', errors, hread, hadded, ?_⟩
    · rw [hadded, hremoved]
      exact length_replace t files g'
    · have hsame : ∀ n : Node, b.touches root n.loc.file = files.contains n.loc.file := by
        intro n
        rw [Bool.eq_iff_iff, Batch.touches_iff hfiles, contains_iff_mem]
      simp only [hsame]
      exact hs.listed.filter_replace (within_of_readFiles hfiles hread)

/-! ### A script that is deleted and another one that is rewritten

Both request one endpoint, so deleting the first takes the node of that endpoint from the second
too. When the second is then rewritten, its node is there again. -/

theorem Run.next {g : Graph} {past : List Batch} (hs : Run root g past t) (b : Batch)
    (hok : (b.update root t).1.toOption.isSome) : Run root g (b :: past) (b.update root t).2.1 := by
  obtain ⟨u, hu⟩ := Option.isSome_iff_exists.1 hok
  have hu := eq_ok_of_toOption hu
  exact hs.batch b (u := u) (h := (b.update root t).2.2) (Prod.ext hu rfl)

def deletion : Batch :=
  { config := scriptConfig, paths := [scriptPath "b.js"],
    host := requestingScripts [("a.js", "f")] }

def rewriting : Batch :=
  { config := scriptConfig, paths := [scriptPath "a.js"],
    host := requestingScripts [("a.js", "g")] }

def twoScripts : Graph :=
  (readFiles scriptConfig (requestingScripts [("a.js", "f"), ("b.js", "g")]) scriptRoot
    [scriptPath "a.js", scriptPath "b.js"]).toOption.elim ⟨[], []⟩ (·.1)

def afterDeletion : Except Failure Update × Tracked × Host :=
  deletion.update scriptRoot (.ofGraph twoScripts)

def afterRewriting : Except Failure Update × Tracked × Host :=
  rewriting.update scriptRoot afterDeletion.2.1

theorem run_leaves_no_stale_nodes_twoScripts :
    ∃ t t', Run scriptRoot twoScripts [deletion] t ∧
      t.graph.nodes.map (fun n => (n.loc.file, n.name)) = [("a.js", "f")] ∧
      Run scriptRoot twoScripts [rewriting, deletion] t' ∧
      t'.graph.nodes.map (fun n => (n.loc.file, n.name)) = [("a.js", "g"), ("a.js", "/x")] ∧
      ∀ n ∈ t'.graph.nodes, rewriting.Gave scriptRoot n := by
  have hrun : (afterDeletion.1.toOption.isSome ∧
        afterDeletion.2.1.graph.nodes.map (fun n => (n.loc.file, n.name)) = [("a.js", "f")]) ∧
      afterRewriting.1.toOption.isSome ∧
        afterRewriting.2.1.graph.nodes.map (fun n => (n.loc.file, n.name)) =
          [("a.js", "g"), ("a.js", "/x")] := by
    decide +kernel
  obtain ⟨⟨hdeletion, hleft⟩, hrewriting, hnodes⟩ := hrun
  have hs : Run scriptRoot twoScripts [deletion] afterDeletion.2.1 :=
    Run.start.next deletion hdeletion
  have hs' : Run scriptRoot twoScripts [rewriting, deletion] afterRewriting.2.1 :=
    hs.next rewriting hrewriting
  refine ⟨_, _, hs, hleft, hs', hnodes, ?_⟩
  intro n hn
  have hfile : n.loc.file = "a.js" := by
    have hmem := mem_map_of_mem (f := fun n : Node => (n.loc.file, n.name)) hn
    rw [hnodes] at hmem
    rcases mem_cons.1 hmem with heq | hmem
    · exact (Prod.mk.inj heq).1
    · exact (Prod.mk.inj (mem_singleton.1 hmem)).1
  apply (run_leaves_no_stale_nodes hs').1 n hn
  rw [hfile]
  rfl

end CodeAtlas.Index
