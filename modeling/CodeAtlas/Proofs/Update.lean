import CodeAtlas.Index.Update
import CodeAtlas.Proofs.OrderedMap
import CodeAtlas.Proofs.Reading
import CodeAtlas.Proofs.Running

/-!
# What an update keeps

An update takes out what the touched files gave and puts in what they give now. Nodes are taken out
by their identifiers, with which files are remembered. So a node of an untouched file is lost
exactly if a touched file gave a node with the same identifier (`update_lossless_iff`); requested
endpoints are such nodes.

* `update_run` says all that an update can do, failures included.
* `Tracked.Owned` is the invariant of the index alone: each file is remembered with its own nodes.
* `InStep` ties an index to the files of a project, and `Edited` says what happened to the files.
-/

namespace CodeAtlas.Index

open List
open Host (SameSource)

variable {t : Tracked} {h h' : Host} {config : Config} {root : Path} {paths : List Path}
  {fs : Files} {files : List String}

/-! ## A run of an update

The stores may change on the way, but nothing that symbols are read from. -/

theorem readFiles_of_sameSource (hsame : SameSource h h') :
    readFiles config h' root paths = readFiles config h root paths := by
  have hpath : ∀ r, readPresent r h' root = readPresent r h root := by
    intro r
    funext p
    rw [readPresent, readPresent, readPath, readPath, hsame.grammar, hsame.files]
  simp only [readFiles, hpath]

/-- The operation changes the stores at most, and does not fail. -/
def StoresOnly (op : UpdateM Unit) : Prop :=
  ∀ t h, ∃ h', op.run.run (t, h) = (.ok (), (t, h')) ∧ SameSource h h'

theorem storesOnly_pure : StoresOnly (pure ()) :=
  fun _ h => ⟨h, rfl, rfl, rfl⟩

theorem StoresOnly.then {first second : UpdateM Unit} (hfirst : StoresOnly first)
    (hsecond : StoresOnly second) : StoresOnly (first >>= fun _ => second) := by
  intro t h
  obtain ⟨h', hrun, hsame⟩ := hfirst t h
  obtain ⟨h'', hrun', hsame'⟩ := hsecond t h'
  exact ⟨h'', by rw [run_bind_ok hrun, hrun'], hsame.trans hsame'⟩

theorem storesOnly_tryOnHost {α : Type} (op : Vector.StoreM α) :
    StoresOnly (tryOnHost (Host.onVectors op)) :=
  fun _ h => ⟨_, rfl, Host.keepsSource_onServices _ h⟩

theorem storesOnly_forM {α : Type} {items : List α} {op : α → UpdateM Unit}
    (hop : ∀ a ∈ items, StoresOnly (op a)) : StoresOnly (items.forM op) := by
  induction items with
  | nil => exact storesOnly_pure
  | cons a rest ih =>
    exact (hop a mem_cons_self).then (ih fun b hb => hop b (mem_cons_of_mem a hb))

theorem storesOnly_forgetFiles (catalog? : Option Vector.Catalog) (files : List String) :
    StoresOnly (forgetFiles catalog? files) := by
  cases catalog? with
  | none => exact storesOnly_pure
  | some c => exact storesOnly_forM fun f _ => storesOnly_tryOnHost _

theorem storesOnly_keepNodes (catalog? : Option Vector.Catalog) (nodes : List Node) :
    StoresOnly (keepNodes catalog? nodes) := by
  cases catalog? with
  | none => exact storesOnly_pure
  | some c =>
    rw [keepNodes]
    split
    · exact storesOnly_pure
    · exact storesOnly_tryOnHost _

theorem filesBelow_eq_ok_iff : filesBelow root fs paths = .ok files ↔
    paths.map (fileBelow root) = files.map .ok ∧ ∀ p ∈ paths, fs.fault? p = none := by
  have hone : ∀ p file, (do let file ← fileBelow root p; fs.look p; return file) = .ok file ↔
      fileBelow root p = .ok file ∧ fs.fault? p = none := by
    intro p file
    rw [Files.look]
    cases fileBelow root p <;> cases fs.fault? p <;> simp [bind, Except.bind, pure, Except.pure]
  rw [filesBelow, mapM_eq_ok_iff]
  induction paths generalizing files with
  | nil => simp
  | cons p rest ih =>
    cases files with
    | nil => simp
    | cons file others =>
      simp only [map_cons, cons.injEq, forall_mem_cons, hone, ih]
      tauto

/-- **What an update can do.** A path outside of the project, or one that cannot be looked at, stops
it at once. Otherwise what the files gave is dropped, and if the files can be read, what they give
now is added. -/
theorem update_run (root : Path) (config : Config) (catalog? : Option Vector.Catalog)
    (paths : List Path) (t : Tracked) (h : Host) :
    ∃ h', SameSource h h' ∧
      (update root config catalog? paths).run.run (t, h) =
        match filesBelow root h.files paths with
        | .error f => (.error f, (t, h))
        | .ok files =>
          match readFiles config h root paths with
          | .error f => (.error f, (t.drop files, h'))
          | .ok (g, errors) =>
            (.ok ⟨(paths.filter h.files.holds).isEmpty && !paths.isEmpty, g.nodes.length,
                (t.graph.nodes.filter fun n => (t.idsOf files).contains n.id).length,
                  errors.length⟩,
              ((t.drop files).add g, h')) := by
  rw [update, run_bind_ok (run_get _)]
  dsimp only
  cases hfiles : filesBelow root h.files paths with
  | error f => exact ⟨h, ⟨rfl, rfl⟩, run_bind_error (run_except _ _)⟩
  | ok files =>
    rw [← readFiles_filter_holds (filesBelow_eq_ok_iff.1 hfiles).2]
    obtain ⟨h₁, hforget, hsame₁⟩ := storesOnly_forgetFiles catalog? files (t.drop files) h
    rw [run_bind_ok (run_except _ _), run_bind_ok (run_set _ _), run_bind_ok hforget]
    cases readFiles config h root (paths.filter h.files.holds) with
    | error f => exact ⟨h₁, hsame₁, run_bind_error (run_except _ _)⟩
        -- what was dropped stays dropped
    | ok o =>
      obtain ⟨h₂, hkeep, hsame₂⟩ :=
        storesOnly_keepNodes catalog? o.1.nodes ((t.drop files).add o.1) h₁
      refine ⟨h₂, hsame₁.trans hsame₂, ?_⟩
      rw [run_bind_ok (run_except _ _)]
      dsimp only
      rw [run_bind_ok (run_modify _ _), run_bind_ok hkeep]
      rfl

/-! ## Nodes and the files that own them

Dropping files takes out every node with an identifier of theirs, wherever it stands. -/

theorem ids_addOwners (owners : OrderedMap String (List String)) (nodes : List Node) (f : String) :
    ((addOwners owners nodes).get? f).getD [] =
      (owners.get? f).getD [] ++ (nodes.filter fun n => n.loc.file == f).map (·.id) := by
  induction nodes generalizing owners with
  | nil => simp [addOwners]
  | cons n rest ih =>
    rw [addOwners, foldl_cons, ← addOwners, ih, OrderedMap.get?_alter, filter_cons]
    by_cases hf : n.loc.file = f
    · simp [hf]
    · simp [hf, Ne.symm hf]

/-- Every file is remembered with the identifiers of its nodes. -/
def Tracked.Owned (t : Tracked) : Prop :=
  ∀ f, (t.owners.get? f).getD [] = (t.graph.nodes.filter fun n => n.loc.file == f).map (·.id)

theorem Tracked.owned_ofGraph (g : Graph) : (Tracked.ofGraph g).Owned := by
  intro f
  rw [Tracked.ofGraph, ids_addOwners]
  rfl

def elsewhere (files : List String) (nodes : List Node) : List Node :=
  nodes.filter fun n => !files.contains n.loc.file

/-- No node of some files has the identifier of a node of another file. -/
def Unshared (files : List String) (nodes : List Node) : Prop :=
  ∀ n ∈ nodes, n.loc.file ∈ files → ∀ m ∈ nodes, m.loc.file ∉ files → m.id ≠ n.id

instance (files : List String) (nodes : List Node) : Decidable (Unshared files nodes) :=
  inferInstanceAs (Decidable (∀ n ∈ nodes, n.loc.file ∈ files → ∀ m ∈ nodes, m.loc.file ∉ files →
    m.id ≠ n.id))

theorem Tracked.Owned.mem_idsOf (ht : t.Owned) {id : String} :
    id ∈ t.idsOf files ↔ ∃ n ∈ t.graph.nodes, n.loc.file ∈ files ∧ n.id = id := by
  rw [Tracked.idsOf, mem_flatMap]
  simp only [ht _, mem_map, mem_filter, beq_iff_eq]
  constructor
  · rintro ⟨f, hf, n, ⟨hn, rfl⟩, rfl⟩
    exact ⟨n, hn, hf, rfl⟩
  · rintro ⟨n, hn, hf, rfl⟩
    exact ⟨_, hf, n, ⟨hn, rfl⟩, rfl⟩

theorem Tracked.Owned.drop_nodes (ht : t.Owned) :
    (t.drop files).graph.nodes =
      (elsewhere files t.graph.nodes).filter fun n => !(t.idsOf files).contains n.id := by
  rw [elsewhere, filter_filter]
  refine filter_congr fun n hn => ?_
  by_cases hf : n.loc.file ∈ files
  · -- a node of a dropped file goes with its own identifier
    have hid : n.id ∈ t.idsOf files := ht.mem_idsOf.2 ⟨n, hn, hf, rfl⟩
    simp [hid]
  · simp [hf]

theorem Tracked.Owned.drop_nodes_of_unshared (ht : t.Owned) (hun : Unshared files t.graph.nodes) :
    (t.drop files).graph.nodes = elsewhere files t.graph.nodes := by
  rw [ht.drop_nodes, filter_eq_self]
  intro m hm
  obtain ⟨hm, hmf⟩ := mem_filter.1 hm
  have hid : m.id ∉ t.idsOf files := by
    rw [ht.mem_idsOf]
    rintro ⟨n, hn, hf, heq⟩
    exact hun n hn hf m hm (by simpa using hmf) heq.symm
  simp [hid]

/-- Dropping files leaves all other nodes exactly if no identifier is shared. -/
theorem Tracked.Owned.drop_nodes_perm_iff (ht : t.Owned) (files : List String) :
    (t.drop files).graph.nodes.Perm (elsewhere files t.graph.nodes) ↔
      Unshared files t.graph.nodes := by
  constructor
  · intro hperm n hn hf m hm hmf heq
    -- a filter that keeps the length keeps every element, also `m`
    rw [ht.drop_nodes] at hperm
    have hall := length_filter_eq_length_iff.1 hperm.length_eq m (by simp [elsewhere, hm, hmf])
    have hid : m.id ∈ t.idsOf files := ht.mem_idsOf.2 ⟨n, hn, hf, heq.symm⟩
    simp [hid] at hall
  · intro hun
    rw [ht.drop_nodes_of_unshared hun]

/-- A graph whose nodes all stand in some files. -/
def Within (files : List String) (nodes : List Node) : Prop :=
  ∀ n ∈ nodes, n.loc.file ∈ files

theorem elsewhere_eq_nil {nodes : List Node} (hn : Within files nodes) :
    elsewhere files nodes = [] := by
  rw [elsewhere, filter_eq_nil_iff]
  intro n hmem
  simp [hn n hmem]

theorem Tracked.Owned.elsewhere_replace (ht : t.Owned) {g : Graph} (hg : Within files g.nodes) :
    elsewhere files ((t.drop files).add g).graph.nodes = (t.drop files).graph.nodes := by
  have hdrop : elsewhere files (t.drop files).graph.nodes = (t.drop files).graph.nodes := by
    rw [elsewhere, filter_eq_self, ht.drop_nodes]
    intro n hn
    exact (mem_filter.1 (mem_filter.1 hn).1).2
  rw [Tracked.add, elsewhere, filter_append, ← elsewhere, ← elsewhere, hdrop, elsewhere_eq_nil hg,
    append_nil]

theorem filter_elsewhere {f : String} (nodes : List Node) :
    (elsewhere files nodes).filter (fun n => n.loc.file == f) =
      if f ∈ files then [] else nodes.filter fun n => n.loc.file == f := by
  rw [elsewhere, filter_filter]
  split
  · next hf =>
    rw [filter_eq_nil_iff]
    rintro n - hn
    obtain ⟨rfl, hout⟩ : n.loc.file = f ∧ n.loc.file ∉ files := by simpa using hn
    exact hout hf
  · next hf =>
    refine filter_congr fun n _ => ?_
    by_cases hn : n.loc.file = f <;> simp [hn, hf]

theorem Tracked.Owned.replace (ht : t.Owned) (hun : Unshared files t.graph.nodes) (g : Graph) :
    ((t.drop files).add g).Owned := by
  intro f
  rw [Tracked.add, ids_addOwners, filter_append, map_append, ht.drop_nodes_of_unshared hun,
    filter_elsewhere, Tracked.drop, OrderedMap.get?_foldl_erase]
  split
  · rfl
  · rw [ht f]

/-- The index is in step with some files of a project: it holds what they give, up to order, each
file with its own nodes. -/
structure InStep (config : Config) (h : Host) (root : Path) (all : List Path) (t : Tracked) :
    Prop where
  owned : t.Owned
  nodes : ∃ g errors, readFiles config h root all = .ok (g, errors) ∧ t.graph.nodes.Perm g.nodes

/-- A project with the files `all` has become one with the files `all'`, and `paths` are all that
was changed, added or deleted. -/
structure Edited (paths : List Path) (h h' : Host) (all all' : List Path) : Prop where
  grammar : h'.grammar = h.grammar
  nodup : all.Nodup ∧ all'.Nodup ∧ paths.Nodup
  clean : ∀ p ∈ all ++ paths, p.Clean
  same : ∀ p ∈ all, p ∉ paths → p ∈ all' ∧ h'.files.entry? p = h.files.entry? p
  old : ∀ p ∈ all', p ∉ paths → p ∈ all
  present : ∀ p ∈ paths, p ∈ all' ↔ h'.files.holds p

variable {all all' : List Path} {r : Readers}

theorem fileBelow_eq_ok_iff {p : Path} {f : String} :
    fileBelow root p = .ok f ↔ ∃ q, p.relativeTo? root = some q ∧ q.toText = f := by
  rw [fileBelow]
  cases p.relativeTo? root <;> simp

theorem mem_files_iff (hfiles : filesBelow root fs paths = .ok files)
    (hclean : ∀ p ∈ paths, p.Clean) {p q : Path}
    (hp : p.Clean) (hq : p.relativeTo? root = some q) : q.toText ∈ files ↔ p ∈ paths := by
  have hmem : q.toText ∈ files ↔ .ok q.toText ∈ paths.map (fileBelow root) := by
    rw [(filesBelow_eq_ok_iff.1 hfiles).1]
    simp
  rw [hmem, mem_map]
  constructor
  · rintro ⟨p', hp', hok⟩
    obtain ⟨q', hq', htext⟩ := fileBelow_eq_ok_iff.1 hok
    rwa [Path.eq_of_relative_text_eq hp (hclean p' hp') hq hq' htext.symm]
  · intro hp
    exact ⟨p, hp, fileBelow_eq_ok_iff.2 ⟨q, hq, rfl⟩⟩

theorem file_mem_iff (hfiles : filesBelow root fs paths = .ok files) (hclean : ∀ p ∈ paths, p.Clean)
    {p : Path} (hp : p.Clean) {n : Node} (hn : n ∈ (emissionAt r h root p).nodes) :
    n.loc.file ∈ files ↔ p ∈ paths := by
  obtain ⟨q, hq, hfile⟩ := file_of_mem_emissionAt hn
  rw [hfile]
  exact mem_files_iff hfiles hclean hp hq

theorem elsewhere_graphAt (hfiles : filesBelow root fs paths = .ok files)
    (hclean : ∀ p ∈ all ++ paths, p.Clean) :
    elsewhere files (graphAt r h root all).nodes =
      (graphAt r h root (all.filter fun p => !paths.contains p)).nodes := by
  have hpaths : ∀ p ∈ paths, p.Clean := fun p hp => hclean p (mem_append_right all hp)
  simp only [graphAt]
  -- file by file: all nodes of a file are in or out together
  induction all with
  | nil => rfl
  | cons p rest ih =>
    have ih := ih fun q hq => hclean q (mem_cons_of_mem p hq)
    have hin : ∀ n ∈ (emissionAt r h root p).nodes, n.loc.file ∈ files ↔ p ∈ paths :=
      fun n hn => file_mem_iff hfiles hpaths (hclean p (by simp)) hn
    rw [flatMap_cons, elsewhere, filter_append, ← elsewhere, ← elsewhere, ih, filter_cons]
    by_cases hp : p ∈ paths
    · rw [elsewhere_eq_nil fun n hn => (hin n hn).2 hp]
      simp [hp]
    · have hself :
          elsewhere files (emissionAt r h root p).nodes = (emissionAt r h root p).nodes := by
        rw [elsewhere, filter_eq_self]
        intro n hn
        simp [hin n hn, hp]
      simp [hp, hself]

namespace Edited

variable (hedit : Edited paths h h' all all')
include hedit

theorem perm_all :
    all'.Perm ((all.filter fun p => !paths.contains p) ++ paths.filter h'.files.holds) := by
  obtain ⟨hall, hall', hpaths⟩ := hedit.nodup
  rw [perm_ext_iff_of_nodup hall']
  · intro p
    have hsame := hedit.same p
    have hold := hedit.old p
    have hpresent := hedit.present p
    simp only [mem_append, mem_filter, contains_eq_mem, Bool.not_eq_true', decide_eq_false_iff_not]
    by_cases hp : p ∈ paths <;> grind
  · -- untouched and touched files are apart
    rw [nodup_append]
    refine ⟨hall.filter _, hpaths.filter _, ?_⟩
    rintro p hp q hq rfl
    simp_all [mem_filter]

theorem flatMap_perm (r : Readers) (root : Path) {α : Type} {f : Extract.Emission → List α}
    (hf : f {} = []) :
    (all'.flatMap fun p => f (emissionAt r h' root p)).Perm
      (((all.filter fun p => !paths.contains p).flatMap fun p => f (emissionAt r h root p)) ++
        paths.flatMap fun p => f (emissionAt r h' root p)) := by
  have hkept :
      ((all.filter fun p => !paths.contains p).flatMap fun p => f (emissionAt r h root p)) =
      (all.filter fun p => !paths.contains p).flatMap fun p => f (emissionAt r h' root p) := by
    simp only [flatMap_def]
    congr 1
    refine map_congr_left fun p hp => ?_
    obtain ⟨hp, hout⟩ := mem_filter.1 hp
    obtain ⟨-, hentry⟩ := hedit.same p hp (by simpa using hout)
    rw [emissionAt_congr hedit.grammar (by rw [Files.content?, Files.content?, hentry])]
  have hpresent : ((paths.filter h'.files.holds).flatMap fun p => f (emissionAt r h' root p)) =
      paths.flatMap fun p => f (emissionAt r h' root p) := flatMap_filter_holds hf
  rw [hkept, ← hpresent, ← flatMap_append]
  exact hedit.perm_all.flatMap_right _

/-- An update with the touched files returns if they can be looked at: those that are there are
files of the project. -/
theorem update_returns (hr : Readers.ofNames config.parsing.languages = .ok r)
    (hreadable : ∀ p ∈ all', Readable r h' root p)
    (hfiles : filesBelow root h'.files paths = .ok files) (catalog? : Option Vector.Catalog)
    (t : Tracked) : ∃ u h'', SameSource h' h'' ∧
      (update root config catalog? paths).run.run (t, h') =
        (.ok u, ((t.drop files).add (graphAt r h' root paths), h'')) := by
  have hpaths : ∀ p ∈ paths, Readable r h' root p :=
    fun p hp => ⟨(filesBelow_eq_ok_iff.1 hfiles).2 p hp,
      fun hholds => (hreadable p ((hedit.present p hp).2 hholds)).2 hholds⟩
  obtain ⟨newErrors, hnew⟩ := (readFiles_eq_ok_iff hr).2 ⟨hpaths, rfl⟩
  obtain ⟨h'', hsame, hrun⟩ := update_run root config catalog? paths t h'
  rw [hfiles] at hrun
  dsimp only at hrun
  rw [hnew] at hrun
  exact ⟨_, h'', hsame, hrun⟩

end Edited

theorem inStep_ofGraph {g : Graph} {errors : List String}
    (hread : readFiles config h root all = .ok (g, errors)) :
    InStep config h root all (Tracked.ofGraph g) :=
  ⟨Tracked.owned_ofGraph g, g, errors, hread, .refl _⟩

/-- **An update loses nothing exactly where identifiers are not shared.** Let an index be in step
with a project, and let the project be edited and its files be readable. Then the update with the
touched paths returns. The nodes of the other files are all kept, and the index holds what a fresh
one would hold, in each case exactly if no node of a touched file has the identifier of a node of
another file; and then the index is in step again. -/
theorem update_lossless_iff (catalog? : Option Vector.Catalog) (hstep : InStep config h root all t)
    (hedit : Edited paths h h' all all') (hfiles : filesBelow root h'.files paths = .ok files)
    {g' : Graph} {errors' : List String}
    (hread : readFiles config h' root all' = .ok (g', errors')) :
    ∃ u t' h'', (update root config catalog? paths).run.run (t, h') = (.ok u, (t', h'')) ∧
      ((elsewhere files t'.graph.nodes).Perm (elsewhere files t.graph.nodes) ↔
        Unshared files t.graph.nodes) ∧
      (t'.graph.nodes.Perm g'.nodes ↔ Unshared files t.graph.nodes) ∧
      (Unshared files t.graph.nodes → InStep config h'' root all' t') := by
  obtain ⟨g, errors, hreadAll, hnodes⟩ := hstep.nodes
  obtain ⟨r, hr⟩ := ofNames_of_readFiles hread
  obtain ⟨hreadable, hg'⟩ := (readFiles_eq_ok_iff hr).1 ⟨errors', hread⟩
  obtain ⟨-, hg⟩ := (readFiles_eq_ok_iff hr).1 ⟨errors, hreadAll⟩
  have hclean : ∀ p ∈ paths, p.Clean := fun p hp => hedit.clean p (mem_append_right all hp)
  obtain ⟨u, h'', hsame, hrun⟩ := hedit.update_returns hr hreadable hfiles catalog? t
  refine ⟨u, _, h'', hrun, ?_⟩
  -- what is put in stands in the touched files, and what is left is what the untouched files gave
  have hwithin : Within files (graphAt r h' root paths).nodes := by
    intro n hn
    obtain ⟨p, hp, hn⟩ := mem_flatMap.1 hn
    exact (file_mem_iff hfiles hclean (hclean p hp) hn).2 hp
  have hkept : (elsewhere files t.graph.nodes).Perm
      (graphAt r h root (all.filter fun p => !paths.contains p)).nodes := by
    rw [← elsewhere_graphAt hfiles hedit.clean, ← hg]
    exact hnodes.filter _
  have hdrop := hstep.owned.drop_nodes_perm_iff files
  have hfresh : ((t.drop files).add (graphAt r h' root paths)).graph.nodes.Perm g'.nodes ↔
      Unshared files t.graph.nodes := by
    -- a fresh index is what the untouched files gave and what was put in, so the rest must be the
    -- same
    have hall := (hedit.flatMap_perm r root (f := (·.nodes)) rfl).trans (hkept.symm.append_right _)
    rw [← hdrop, hg', Tracked.add]
    exact ⟨fun hperm => (perm_append_right_iff _).1 (hperm.trans hall),
      fun hperm => (hperm.append_right _).trans hall.symm⟩
  refine ⟨?_, hfresh, ?_⟩
  · rw [hstep.owned.elsewhere_replace hwithin]
    exact hdrop
  · intro hun
    exact ⟨hstep.owned.replace hun _, g', errors', (readFiles_of_sameSource hsame).trans hread,
      hfresh.2 hun⟩

/-! ### Two scripts that make the same request

Endpoints that are requested have one identifier in all files, so deleting one of two scripts that
request the same endpoint takes the other's node as well. -/

def requesting (name : String) : String :=
  "function " ++ name ++ "()\x7bfetch('/x')\x7d"

def requestingTree : Source.Tree :=
  .node "program" 0 25 [.node "function_declaration" 0 25 [
    .node "identifier" 9 10 [],
    .node "formal_parameters" 10 12 [],
    .node "statement_block" 12 25 [.node "call_expression" 13 24 [
      .node "identifier" 13 18 [],
      .node "arguments" 18 24 [.node "string" 19 23 []]]]]]

def requestingScripts (scripts : List (String × String)) : Host where
  files := ⟨.dir [("p", .dir (scripts.map fun s => (s.1, .file (requesting s.2))))]⟩
  grammar := ⟨["f", "g"].map fun name => ((.javascript, requesting name), requestingTree)⟩

def scriptRoot : Path := ⟨true, ["p"]⟩

def scriptPath (name : String) : Path := ⟨true, ["p", name]⟩

def scriptConfig : Config := { parsing := { languages := ["javascript"] } }

theorem readFiles_requestingScripts :
    ∃ g errors, readFiles scriptConfig (requestingScripts [("a.js", "f"), ("b.js", "g")]) scriptRoot
        [scriptPath "a.js", scriptPath "b.js"] = .ok (g, errors) ∧ ¬ Unshared ["b.js"] g.nodes := by
  have hids : (readFiles scriptConfig (requestingScripts [("a.js", "f"), ("b.js", "g")]) scriptRoot
      [scriptPath "a.js", scriptPath "b.js"]).toOption.map
        (fun o => (o.1.nodes.filter fun n => n.kind == .endpoint).map fun n => (n.loc.file, n.id)) =
      some [("a.js", "feacbf82959449e4"), ("b.js", "feacbf82959449e4")] := by
    decide +kernel
  obtain ⟨o, ho, hids⟩ := Option.map_eq_some_iff.1 hids
  refine ⟨o.1, o.2, eq_ok_of_toOption ho, ?_⟩
  have hendpoint : ∀ f, f = "a.js" ∨ f = "b.js" → ∃ n ∈ o.1.nodes, n.loc.file = f ∧
      n.id = "feacbf82959449e4" := by
    intro f hf
    have hmem : (f, "feacbf82959449e4") ∈
        (o.1.nodes.filter fun n => n.kind == .endpoint).map fun n => (n.loc.file, n.id) := by
      rw [hids]
      simpa using hf
    obtain ⟨n, hn, heq⟩ := mem_map.1 hmem
    exact ⟨n, (mem_filter.1 hn).1, (Prod.mk.inj heq).1, (Prod.mk.inj heq).2⟩
  obtain ⟨n, hn, hnf, hnid⟩ := hendpoint "b.js" (.inr rfl)
  obtain ⟨m, hm, hmf, hmid⟩ := hendpoint "a.js" (.inl rfl)
  intro hun
  exact hun n hn (by simp [hnf]) m hm (by simp [hmf]) (hmid.trans hnid.symm)

theorem update_lossless_iff_requestingScripts :
    ∃ g errors u t' h'',
      readFiles scriptConfig (requestingScripts [("a.js", "f"), ("b.js", "g")]) scriptRoot
        [scriptPath "a.js", scriptPath "b.js"] = .ok (g, errors) ∧
      Edited [scriptPath "b.js"] (requestingScripts [("a.js", "f"), ("b.js", "g")])
        (requestingScripts [("a.js", "f")]) [scriptPath "a.js", scriptPath "b.js"]
          [scriptPath "a.js"] ∧
      (update scriptRoot scriptConfig none [scriptPath "b.js"]).run.run
        (Tracked.ofGraph g, requestingScripts [("a.js", "f")]) = (.ok u, (t', h'')) ∧
      ¬ (elsewhere ["b.js"] t'.graph.nodes).Perm (elsewhere ["b.js"] g.nodes) := by
  obtain ⟨g, errors, hread, hshared⟩ := readFiles_requestingScripts
  have hafter : (readFiles scriptConfig (requestingScripts [("a.js", "f")]) scriptRoot
      [scriptPath "a.js"]).toOption.isSome := by
    decide +kernel
  obtain ⟨o', ho'⟩ := Option.isSome_iff_exists.1 hafter
  have hedit : Edited [scriptPath "b.js"] (requestingScripts [("a.js", "f"), ("b.js", "g")])
      (requestingScripts [("a.js", "f")]) [scriptPath "a.js", scriptPath "b.js"]
        [scriptPath "a.js"] := by
    refine ⟨rfl, by decide, by decide, ?_, by decide, by decide +kernel⟩
    intro p hp hout
    obtain rfl : p = scriptPath "a.js" := by simp_all
    exact ⟨mem_singleton.2 rfl, rfl⟩
  have hfiles : filesBelow scriptRoot (requestingScripts [("a.js", "f")]).files
    [scriptPath "b.js"] = .ok ["b.js"] := rfl
  obtain ⟨u, t', h'', hrun, hkept, -, -⟩ :=
    update_lossless_iff none (inStep_ofGraph hread) hedit hfiles (eq_ok_of_toOption ho')
  exact ⟨g, errors, u, t', h'', hread, hedit, hrun, fun hperm => hshared (hkept.1 hperm)⟩

end CodeAtlas.Index
