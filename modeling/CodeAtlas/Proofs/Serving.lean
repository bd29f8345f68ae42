import CodeAtlas.Proofs.Cache
import CodeAtlas.Proofs.Reading
import CodeAtlas.Proofs.Running
import CodeAtlas.Tool.Server

/-!
# The copies of the index stay in step

A server keeps a graph and the same graph readied for search, and a third copy lies in a file of the
project. The invariant is `Coherent`. It holds once the server has started, and each call keeps it:
indexing anew is the only request that touches any of the three (`serve_run`), and it touches them
only after the index was built (`reindex_run`). That the new graph can then be stored needs no
assumption, since the old one is stored there already.
-/

namespace CodeAtlas.Index

open Host

theorem keepsSource_enrichNodes (root : Path) (settings : EnrichmentSettings) (nodes : List Node) :
    KeepsSource (enrichNodes root settings nodes) := by
  intro h
  rw [enrichNodes, run_bind_ok (run_get h)]
  rcases (Summary.enrich h.files root settings nodes).run.run (h.environment, h.model) with ⟨_ | o,
    env, model⟩ <;> exact ⟨rfl, rfl⟩

theorem keepsSource_catalogFor (config : Config) (catalog? : Option Vector.Catalog) (store : Bool) :
    KeepsSource (catalogFor config catalog? store) := by
  cases store with
  | true => exact (keepsSource_catalogOr catalog? config).bind fun c => keepsSource_pure (some c)
  | false => exact keepsSource_pure none

theorem keepsSource_keepSymbols (catalog? : Option Vector.Catalog) (nodes : List Node) :
    KeepsSource (keepSymbols catalog? nodes) := by
  cases catalog? with
  | some c =>
    rw [keepSymbols]
    exact keepsSource_onVectors _
  | none => exact keepsSource_pure 0

theorem keepsSource_keepSummaries (catalog? : Option Vector.Catalog) (o : Summary.Outcome) :
    KeepsSource (keepSummaries catalog? o) := by
  cases catalog? with
  | some c =>
    rw [keepSummaries]
    split
    · exact (keepsSource_onVectors _).bind fun _ => keepsSource_pure ()
    · exact keepsSource_pure ()
  | none => exact keepsSource_pure ()

theorem keepsSource_build (config : Config) (catalog? : Option Vector.Catalog) (o : BuildOptions) :
    KeepsSource (build config catalog? o) := by
  refine keepsSource_get.bind fun h => (keepsSource_except _).bind fun found => ?_
  dsimp only
  -- a project without symbols is done; the others go on to the stores and to the language model
  split
  · exact keepsSource_pure _
  refine (keepsSource_catalogFor config catalog? o.store).bind fun catalog? => ?_
  refine (keepsSource_keepSymbols catalog? _).bind fun indexed => ?_
  split
  · exact keepsSource_pure _
  refine (keepsSource_enrichNodes _ _ _).bind fun outcome => ?_
  exact (keepsSource_keepSummaries catalog? outcome).bind fun _ => keepsSource_pure _

end CodeAtlas.Index

namespace CodeAtlas.Tool.Server

open Host Index Report

variable {root : Path} {config : Config} {s s' : Server} {h h' : Host} {g : Graph}

/-! ## Opening

A server starts with a graph that was stored or that it builds and stores. -/

theorem saveGraph_run (root : Path) (g : Graph) (h : Host) :
    (saveGraph root g).run.run h =
      match Cache.save h.files root h.now g with
      | .ok files => (.ok (), { h with files := files })
      | .error f => (.error f, h) := by
  rw [saveGraph, run_bind_ok (run_get h)]
  cases Cache.save h.files root h.now g <;> rfl

theorem load_of_loadGraph {catalog : Option Vector.Catalog}
    (hrun : (loadGraph root config catalog).run.run h = (.ok g, h')) :
    Cache.load h'.files root = .ok (some g) := by
  rw [loadGraph, run_bind_ok (run_get h)] at hrun
  obtain ⟨stored?, h₀, hload, hrun⟩ := run_bind_eq_ok hrun
  rw [run_except] at hload
  obtain ⟨hstored, rfl⟩ := Prod.mk.inj hload
  cases stored? with
  | some stored =>
    obtain ⟨rfl, rfl⟩ := run_pure_eq_ok hrun
    exact hstored
  | none =>
    obtain ⟨b, h₁, -, hrun⟩ := run_bind_eq_ok hrun
    obtain ⟨⟨⟩, h₂, hsave, hrun⟩ := run_bind_eq_ok hrun
    obtain ⟨rfl, rfl⟩ := run_pure_eq_ok hrun
    rw [saveGraph_run] at hsave
    split at hsave
    · next files hfiles =>
      obtain rfl : { h₁ with files := files } = h₂ := (Prod.mk.inj hsave).2
      exact Cache.load_eq_some_iff.2 (Cache.load?_of_content? (Cache.content?_of_save hfiles))
    · cases (Prod.mk.inj hsave).1

theorem keepsSource_openNotes (e : ExportSettings) : KeepsSource (openNotes e) := by
  rw [openNotes]
  split
  · exact keepsSource_pure none
  · intro h
    rw [run_bind_ok (run_get h)]
    exact ⟨rfl, rfl⟩

structure Coherent (root : Path) (config : Config) (s : Server) (h : Host) : Prop where
  sameRoot : s.root = root
  sameConfig : s.config = config
  index : s.index = Search.buildIndex s.graph.nodes
  stored : Cache.load h.files root = .ok (some s.graph)

/-- However a server starts, its copies of the index agree. -/
theorem coherent_start (hrun : (start root config).run.run h = (.ok s, h')) :
    Coherent root config s h' := by
  obtain ⟨catalog, h₁, -, hrun⟩ := run_bind_eq_ok hrun
  obtain ⟨g, h₂, hload, hrun⟩ := run_bind_eq_ok hrun
  obtain ⟨readers, h₃, hreaders, hrun⟩ := run_bind_eq_ok hrun
  obtain ⟨h₄, h₅, hget, hrun⟩ := run_bind_eq_ok hrun
  obtain ⟨notes, h₆, hnotes, hrun⟩ := run_bind_eq_ok hrun
  obtain ⟨rfl, rfl⟩ := run_pure_eq_ok hrun
  -- after the graph was loaded only the reader of notes is opened, which leaves files alone
  obtain rfl : h₂ = h₃ := (Prod.mk.inj hreaders).2
  obtain rfl : h₂ = h₅ := (Prod.mk.inj hget).2
  have hsame := keepsSource_openNotes config.exporting h₂
  rw [hnotes] at hsame
  refine ⟨rfl, rfl, rfl, ?_⟩
  rw [hsame.files]
  exact load_of_loadGraph hload

theorem onHost_run {α : Type} (op : HostM α) (s : Server) (h : Host) :
    (onHost op).run.run (s, h) = ((op.run.run h).1, (s, (op.run.run h).2)) := by
  rw [onHost, run_bind_ok (run_get _)]
  dsimp only
  rcases op.run.run h with ⟨_ | a, h'⟩ <;> rfl

/-- **What indexing anew can do.** If the index cannot be built, the server keeps what it had.
Otherwise it takes the new graph and stores it. -/
theorem reindex_run (renewal : RenewalRequest) (s : Server) (h : Host) :
    (reindex renewal).run.run (s, h) =
      match (Index.build s.config s.catalog (renewal.options s.catalog.isSome)).run.run h with
      | (.error f, h₁) => (.error f, (s, h₁))
      | (.ok b, h₁) =>
        match Cache.save h₁.files s.root h₁.now b.graph with
        | .error f => (.error f, (s.withGraph b.graph, h₁))
        | .ok files =>
          (.ok (renewalReport renewal s.catalog.isSome b.report),
            (s.withGraph b.graph, { h₁ with files := files })) := by
  have hbuild := onHost_run (Index.build s.config s.catalog (renewal.options s.catalog.isSome)) s h
  rw [reindex, run_bind_ok (run_get _)]
  dsimp only
  rcases hrun : (Index.build s.config s.catalog (renewal.options s.catalog.isSome)).run.run
    h with ⟨f | b, h₁⟩ <;> rw [hrun] at hbuild
  · rw [run_bind_error hbuild]
  · -- the server has the new graph before it is stored
    rw [run_bind_ok hbuild, run_bind_ok (run_modify _ _)]
    have hsave := onHost_run (saveGraph s.root b.graph) (s.withGraph b.graph) h₁
    rw [saveGraph_run] at hsave
    dsimp only
    split
    · next f hfail =>
      rw [hfail] at hsave
      rw [run_bind_error hsave]
    · next files hok =>
      rw [hok] at hsave
      rw [run_bind_ok hsave]
      rfl

theorem serve_run (request : Request) (hrequest : ∀ renewal, request ≠ .reindex renewal)
    (s : Server) (h : Host) :
    ∃ r h', (serve request).run.run (s, h) = (r, (s, h')) ∧ SameSource h h' := by
  have hserve : serve request = get >>= fun state => onHost
      (Host.onServices (state.1.answer state.2 request)) := by
    cases request with
    | reindex renewal => exact absurd rfl (hrequest renewal)
    | _ => rfl
  rw [hserve, run_bind_ok (run_get _), onHost_run]
  exact ⟨_, _, rfl, keepsSource_onServices _ h⟩

/-- A call is a request, or fails at once. -/
theorem call_run (tool : String) (arguments : Json) (s : Server) (h : Host) :
    (call tool arguments).run.run (s, h) =
      match Request.among (s.tools ++ documents) tool arguments with
      | .error f => (.error f, (s, h))
      | .ok request => (serve request).run.run (s, h) := by
  rw [call, run_bind_ok (run_get _)]
  dsimp only
  cases hrequest : Request.among (s.tools ++ documents) tool arguments with
  | error f => exact run_bind_error (run_except _ _)
  | ok request => exact run_bind_ok (run_except _ _)

def renewalOf (arguments : Json) : RenewalRequest :=
  ⟨truth arguments "update_qdrant", truth arguments "enrich"⟩

theorem call_reindex_run (arguments : Json) (s : Server) (h : Host) :
    (call "reindex" arguments).run.run (s, h) = (reindex (renewalOf arguments)).run.run (s, h) := by
  have htool : (s.tools ++ documents).contains "reindex" := by
    rw [List.contains_iff_mem, tools, List.mem_append, List.mem_append, List.mem_append]
    exact .inl (.inl (.inl (by decide)))
  rw [call_run, Request.among, if_pos htool]
  rfl

/-! ## Whole runs

The step and the run, for calls and for changes from outside. -/

theorem Coherent.storable (hs : Coherent root config s h) : Cache.Storable h.files root := by
  obtain ⟨text, htext, -⟩ := Option.bind_eq_some_iff.1 (Cache.load_eq_some_iff.1 hs.stored)
  obtain ⟨content, hcontent, -⟩ := Option.map_eq_some_iff.1 htext
  exact Cache.storable_of_content? hcontent

theorem Coherent.of_sameSource (hs : Coherent root config s h) (hsame : SameSource h h') :
    Coherent root config s h' :=
  ⟨hs.sameRoot, hs.sameConfig, hs.index, by rw [hsame.files]; exact hs.stored⟩

/-- **Indexing anew keeps a server coherent.** It fails only where the index cannot be built, and
then nothing has changed. -/
theorem Coherent.reindex (hs : Coherent root config s h) (renewal : RenewalRequest) :
    ∀ {r s' h'}, (reindex renewal).run.run (s, h) = (r, (s', h')) →
      Coherent root config s' h' ∧
        match r with
        | .error f => s' = s ∧ h'.files = h.files ∧
            (Index.build config s.catalog (renewal.options s.catalog.isSome)).run.run h =
              (.error f, h')
        | .ok _ => ∃ b h₁, (Index.build config s.catalog (renewal.options s.catalog.isSome)).run.run
            h = (.ok b, h₁) ∧ s'.graph = b.graph := by
  intro r s' h' hrun
  have hsame := keepsSource_build config s.catalog (renewal.options s.catalog.isSome) h
  rw [reindex_run, hs.sameConfig, hs.sameRoot] at hrun
  split at hrun
  · next f h₁ hbuild =>
    rw [hbuild] at hsame
    obtain ⟨rfl, hstate⟩ := Prod.mk.inj hrun
    obtain ⟨rfl, rfl⟩ := Prod.mk.inj hstate
    exact ⟨hs.of_sameSource hsame, rfl, hsame.files, hbuild⟩
  · next b h₁ hbuild =>
    rw [hbuild] at hsame
    -- the stored graph is there, so another one can be stored in its place
    obtain ⟨files, hsave⟩ :=
      (Cache.exists_save_eq_ok_iff h₁.files root h₁.now b.graph).2 (hsame.files ▸ hs.storable)
    rw [hsave] at hrun
    obtain ⟨rfl, hstate⟩ := Prod.mk.inj hrun
    obtain ⟨rfl, rfl⟩ := Prod.mk.inj hstate
    refine ⟨⟨hs.sameRoot, hs.sameConfig, rfl, ?_⟩, b, h₁, hbuild, rfl⟩
    exact Cache.load_eq_some_iff.2 (Cache.load?_of_content? (Cache.content?_of_save hsave))

/-- **Every call keeps a server coherent**, whether it succeeds or fails. -/
theorem Coherent.call {r : Except Failure String} (hs : Coherent root config s h) (tool : String)
    (arguments : Json)
    (hrun : (call tool arguments).run.run (s, h) = (r, (s', h'))) : Coherent root config s' h' := by
  rw [call_run] at hrun
  split at hrun
  · obtain ⟨rfl, rfl⟩ := Prod.mk.inj (Prod.mk.inj hrun).2
    exact hs
  · next request _ =>
    by_cases hrequest : ∃ renewal, request = .reindex renewal
    · obtain ⟨renewal, rfl⟩ := hrequest
      exact (hs.reindex renewal hrun).1
    · obtain ⟨r₁, h₁, hserve, hsame⟩ :=
        serve_run request (fun renewal heq => hrequest ⟨renewal, heq⟩) s h
      rw [hserve] at hrun
      obtain ⟨rfl, rfl⟩ := Prod.mk.inj (Prod.mk.inj hrun).2
      exact hs.of_sameSource hsame

/-- The states of a server and its host: it starts, and then calls and changes from outside follow
each other. From outside anything may change but the stored graph. -/
inductive Reachable (root : Path) (config : Config) : Server → Host → Prop
  | start {s : Server} {h h' : Host} (hrun : (start root config).run.run h = (.ok s, h')) :
      Reachable root config s h'
  | outside {s : Server} {h h' : Host} (hs : Reachable root config s h)
      (hcache : h'.files.content? (Cache.path root) = h.files.content? (Cache.path root)) :
    Reachable root config s h'
  | call {s s' : Server} {h h' : Host} {r : Except Failure String} (hs : Reachable root config s h)
      (tool : String)
      (arguments : Json) (hrun : (call tool arguments).run.run (s, h) = (r, (s', h'))) :
    Reachable root config s' h'

/-- The run, by induction on the calls and changes. -/
theorem Reachable.coherent (hs : Reachable root config s h) : Coherent root config s h := by
  induction hs with
  | start hrun => exact coherent_start hrun
  | outside _ hcache ih =>
    -- loading looks at the content of one path only
    refine ⟨ih.sameRoot, ih.sameConfig, ih.index, Cache.load_eq_some_iff.2 ?_⟩
    rw [Cache.load?, Files.text?, hcache]
    exact Cache.load_eq_some_iff.1 ih.stored
  | call _ tool arguments hrun ih => exact ih.call tool arguments hrun

/-- **In every state of every run the three copies of the index agree**: the graph that the server
keeps, its symbols readied for search, and the stored file. A call to index anew fails just where
the index cannot be built and then changes none of them. One that succeeds makes the graph the one
that indexing the current files gives. -/
theorem reachable_in_step (hs : Reachable root config s h) :
    s.index = Search.buildIndex s.graph.nodes ∧ Cache.load h.files root = .ok (some s.graph) ∧
      ∀ arguments r s' h', (Server.call "reindex" arguments).run.run (s, h) = (r, (s', h')) →
        match r with
        | .error f => s' = s ∧ h'.files = h.files ∧
            (Index.build config s.catalog ((renewalOf arguments).options s.catalog.isSome)).run.run
              h = (.error f, h')
        | .ok _ => ∃ b h₁,
            (Index.build config s.catalog ((renewalOf arguments).options s.catalog.isSome)).run.run
              h = (.ok b, h₁) ∧ s'.graph = b.graph := by
  have hcoherent := hs.coherent
  refine ⟨hcoherent.index, hcoherent.stored, fun arguments r s' h' hrun => ?_⟩
  rw [call_reindex_run] at hrun
  exact (hcoherent.reindex _ hrun).2

/-! ### A project from which all sources were deleted

What is stored is the graph of what once was there, and a server starts with it. While a directory
stands where the ignore patterns should be, indexing anew fails. When it is gone, indexing anew
finds nothing. -/

def deserted (others : List (String × Entry)) : Host where
  files := ⟨.dir [("p", .dir (others ++
    [(".hammy", .dir [("index.json", .file (Cache.text default Cache.oddGraph))])]))]⟩

def desertedConfig :
    Config := { project := { root := "/p" }, ignore := { extraPatterns := [".hammy"] } }

theorem start_deserted :
    ∃ s, (start ⟨true, ["p"]⟩ desertedConfig).run.run (deserted []) = (.ok s, deserted []) ∧
      s.graph = Cache.oddGraph := by
  have hstored : Cache.load (deserted []).files ⟨true, ["p"]⟩ = .ok (some Cache.oddGraph) :=
    Cache.load_eq_some_iff.2
      (Cache.load?_of_content? (show _ = some (Cache.text default Cache.oddGraph) from rfl))
  have hload : (loadGraph ⟨true, ["p"]⟩ desertedConfig none).run.run (deserted []) =
      (.ok Cache.oddGraph, deserted []) := by
    rw [loadGraph, run_bind_ok (run_get _), hstored]
    rfl
  have hopen : (openStore desertedConfig).run.run (deserted []) = (.ok none, deserted []) := rfl
  rw [start, run_bind_ok hopen, run_bind_ok hload]
  exact ⟨_, rfl, rfl⟩

theorem build_deserted (catalog? : Option Vector.Catalog) (o : BuildOptions) :
    ∃ b, (Index.build desertedConfig catalog? o).run.run (deserted []) = (.ok b, deserted []) ∧
      b.graph = ⟨[], []⟩ := by
  have hread : (readProject desertedConfig (deserted [])).toOption.map (·.2.isEmpty) =
    some true := by decide +kernel
  obtain ⟨⟨root, outcomes⟩, hread, hnone⟩ := Option.map_eq_some_iff.1 hread
  obtain rfl : outcomes = [] := List.isEmpty_iff.1 hnone
  have hproject : readProject desertedConfig (deserted []) = .ok (root, []) :=
    eq_ok_of_toOption hread
  rw [Index.build, run_bind_ok (run_get _), hproject]
  exact ⟨_, rfl, rfl⟩

theorem build_blocked (catalog? : Option Vector.Catalog) (o : BuildOptions) :
    ∃ f, (Index.build desertedConfig catalog? o).run.run (deserted [(".gitignore", .dir [])]) =
      (.error f, deserted [(".gitignore", .dir [])]) := by
  have hread :
      (readProject desertedConfig (deserted [(".gitignore", .dir [])])).toOption.isNone := by
    decide +kernel
  rw [Index.build, run_bind_ok (run_get _)]
  cases hproject : readProject desertedConfig (deserted [(".gitignore", .dir [])]) with
  | error f => exact ⟨f, rfl⟩
  | ok o =>
    rw [hproject] at hread
    cases hread

theorem reachable_in_step_deserted :
    ∃ s, (start ⟨true, ["p"]⟩ desertedConfig).run.run (deserted []) = (.ok s, deserted []) ∧
      s.graph = Cache.oddGraph ∧ s.index = Search.buildIndex Cache.oddGraph.nodes ∧
      ∃ f h₁, (Server.call "reindex" (.obj [])).run.run (s, deserted [(".gitignore", .dir [])]) =
        (.error f, (s, h₁)) ∧ Cache.load h₁.files ⟨true, ["p"]⟩ = .ok (some Cache.oddGraph) ∧
        ∃ text s' h', (Server.call "reindex" (.obj [])).run.run (s, deserted []) =
          (.ok text, (s', h')) ∧
          Reachable ⟨true, ["p"]⟩ desertedConfig s' h' ∧ s'.graph = ⟨[], []⟩ ∧
            s'.index = Search.buildIndex [] ∧
          Cache.load h'.files ⟨true, ["p"]⟩ = .ok (some ⟨[], []⟩) := by
  obtain ⟨s, hstart, hgraph⟩ := start_deserted
  obtain ⟨hindex, -, -⟩ := reachable_in_step (.start hstart)
  -- the directory appears, and the first call fails
  have hblocked : Reachable ⟨true, ["p"]⟩ desertedConfig s (deserted [(".gitignore", .dir [])]) :=
    .outside (.start hstart) rfl
  obtain ⟨-, -, hcall⟩ := reachable_in_step hblocked
  obtain ⟨f, hfails⟩ := build_blocked s.catalog ((renewalOf (.obj [])).options s.catalog.isSome)
  rcases hrun : (Server.call "reindex" (.obj [])).run.run (s, deserted [(".gitignore", .dir [])])
    with ⟨f₁ | text, s₁, h₁⟩
  swap
  · obtain ⟨b, h₂, hbuild, -⟩ := hcall _ _ _ _ hrun
    cases hfails.symm.trans hbuild
  obtain ⟨rfl, hfiles, -⟩ := hcall _ _ _ _ hrun
  have hfailed := Reachable.call hblocked _ _ hrun
  obtain ⟨-, hstored, -⟩ := reachable_in_step hfailed
  rw [hgraph] at hstored
  -- the directory disappears, and the second call returns
  have hcleared : Reachable ⟨true, ["p"]⟩ desertedConfig s₁ (deserted []) :=
    .outside hfailed (by rw [hfiles]; rfl)
  obtain ⟨-, -, hcall⟩ := reachable_in_step hcleared
  obtain ⟨b, hbuild, hempty⟩ :=
    build_deserted s₁.catalog ((renewalOf (.obj [])).options s₁.catalog.isSome)
  rcases hrun' : (Server.call "reindex" (.obj [])).run.run (s₁, deserted []) with ⟨f₂ | text, s',
    h'⟩
  · have hfailed := (hcall _ _ _ _ hrun').2.2
    cases hbuild.symm.trans hfailed
  obtain ⟨b', h₂, hbuild', hgraph'⟩ := hcall _ _ _ _ hrun'
  obtain rfl : b = b' := Except.ok.inj (Prod.mk.inj (hbuild.symm.trans hbuild')).1
  have hreached := Reachable.call hcleared _ _ hrun'
  obtain ⟨hindex', hstored', -⟩ := reachable_in_step hreached
  rw [hgraph', hempty] at hindex' hstored'
  exact ⟨s₁, hstart, hgraph, hgraph ▸ hindex, f₁, h₁, hrun, hstored, text, s', h', hrun', hreached,
    hgraph'.trans hempty, hindex', hstored'⟩

end CodeAtlas.Tool.Server
