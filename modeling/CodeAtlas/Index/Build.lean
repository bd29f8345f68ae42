import CodeAtlas.Host
import CodeAtlas.Index.Cache
import CodeAtlas.Index.Readers
import CodeAtlas.Summary.Enrich

/-!
# Indexing a project

The files of a project are read one after the other, and what they define makes up its graph. A file
whose extraction fails is reported and does not disturb the others; one that cannot be read ends the
run. The symbols may then be kept in the vector store and summarized by a language model.
-/

namespace CodeAtlas.Index

structure Report where
  filesProcessed : Nat := 0
  filesSkipped : Nat := 0
  nodesExtracted : Nat := 0
  edgesExtracted : Nat := 0
  nodesIndexed : Nat := 0
  nodesEnriched : Nat := 0
  errors : List String := []
deriving Inhabited, Repr

abbrev FileOutcome := String × Except Failure Extract.Emission

def readEntry (r : Readers) (h : Host) (root : Path) (e : FileEntry) :
    Except Failure (Option FileOutcome) := do
  match ← r.parseFile h.grammar h.files e.path with
  | none => return none
  | some (parsed, language) =>
    let file := ((e.path.relativeTo? root).getD e.path).toText
    return some (file, symbolsIn language file parsed)

def graphOf (outcomes : List (Option FileOutcome)) : Graph :=
  let found := outcomes.filterMap fun o => o.bind (·.2.toOption)
  ⟨found.flatMap (·.nodes), found.flatMap (·.edges)⟩

def reportOf (outcomes : List (Option FileOutcome)) : Report :=
  let g := graphOf outcomes
  let processed := outcomes.countP fun o => o.any (·.2.toBool)
  let errors := outcomes.filterMap fun o =>
    match o with
    | some (file, .error f) => some (file ++ ": " ++ f.message)
    | _ => none
  { filesProcessed := processed
    filesSkipped := outcomes.length - processed
    nodesExtracted := g.nodes.length
    edgesExtracted := g.edges.length
    errors := errors }

def eligible (config : Config) (files : Files) : Except Failure (Path × Readers × List Stop) := do
  let root := files.resolve (Path.ofText config.project.root)
  let rules ← Ignore.Rules.load files root config.ignore
  let readers ← Readers.ofNames config.parsing.languages
  return (root, readers,
    stops ⟨rules, config.parsing.maxFileSizeKb, some config.parsing.languages⟩ files root)

def readProject (config : Config) (h : Host) :
    Except Failure (Path × List (Option FileOutcome)) := do
  let (root, readers, stops) ← eligible config h.files
  return (root, ← stops.mapM fun s => s.bind (readEntry readers h root))

structure BuildOptions where
  store : Bool := true
  enrich : Bool := false

def enrichNodes (root : Path) (settings : EnrichmentSettings) (nodes : List Node) :
    HostM Summary.Outcome := do
  let h ← get
  let (r, env, model) :=
    (Summary.enrich h.files root settings nodes).run.run (h.environment, h.model)
  set { h with environment := env, model := model }
  match r with
  | .ok o => return o
  | .error f => throw f

structure Build where
  report : Report
  graph : Graph
  progress : List (Nat × Nat) := []

def catalogFor (config : Config) (catalog? : Option Vector.Catalog) (store : Bool) :
    HostM (Option Vector.Catalog) :=
  if store then some <$> Host.catalogOr catalog? config else pure none

def keepSymbols (catalog? : Option Vector.Catalog) (nodes : List Node) : HostM Nat :=
  match catalog? with
  | some c => Host.onVectors (do c.ensureAll; c.keepSymbols nodes)
  | none => pure 0

def keepSummaries (catalog? : Option Vector.Catalog) (o : Summary.Outcome) : HostM Unit :=
  match catalog? with
  | some c => if 0 < o.enriched then discard (Host.onVectors (c.keepSymbols o.nodes)) else pure ()
  | none => pure ()

def build (config : Config) (catalog? : Option Vector.Catalog) (o : BuildOptions) :
    HostM Build := do
  let (root, outcomes) ← readProject config (← get)
  let graph := graphOf outcomes
  let report := reportOf outcomes
  if graph.nodes.isEmpty then return ⟨report, graph, []⟩
  let catalog? ← catalogFor config catalog? o.store
  let indexed ← keepSymbols catalog? graph.nodes
  let report := { report with nodesIndexed := indexed }
  if !o.enrich then return ⟨report, graph, []⟩
  let outcome ← enrichNodes root config.enrichment graph.nodes
  keepSummaries catalog? outcome
  return ⟨{ report with nodesEnriched := outcome.enriched, errors := report.errors ++
    outcome.errors }, ⟨outcome.nodes, graph.edges⟩, outcome.progress⟩

def readPath (r : Readers) (h : Host) (root p : Path) : Except Failure (Option FileOutcome) := do
  match ← r.parseFile h.grammar h.files p with
  | none => return none
  | some (parsed, language) =>
    match p.relativeTo? root with
    | none => return some (p.toText, .error (Failure.outside p.toText root.toText))
    | some file => return some (p.toText, symbolsIn language file.toText parsed)

def readPresent (r : Readers) (h : Host) (root p : Path) : Except Failure (Option FileOutcome) := do
  if ← h.files.has p then readPath r h root p else return none

/-- Reads some files of a project, given by their paths. A file that is not there, or whose language
is not read, is passed over; a file with a mistake is reported. -/
def readFiles (config : Config) (h : Host) (root : Path) (paths : List Path) :
    Except Failure (Graph × List String) := do
  let readers ← Readers.ofNames config.parsing.languages
  let outcomes ← paths.mapM (readPresent readers h root)
  return (graphOf outcomes, (reportOf outcomes).errors)

end CodeAtlas.Index
