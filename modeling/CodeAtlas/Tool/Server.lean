import CodeAtlas.KeyValue.Notes
import CodeAtlas.Report.Calls
import CodeAtlas.Report.Explain
import CodeAtlas.Report.File
import CodeAtlas.Tool.Request
import CodeAtlas.Tool.Shared

/-!
# The server

The server keeps the graph of a project, ready for search, and answers requests about it. Only a
request to index anew changes what it keeps; the graph is then also stored in the project.
Everything else reads files and calls services.
-/

namespace CodeAtlas.Tool

open Report

structure Server where
  root : Path
  config : Config
  readers : Index.Readers
  graph : Index.Graph := {}
  index : Search.WordIndex := .empty
  catalog : Option Vector.Catalog := none
  system : Option History.System := none
  notes : Option KeyValue.NoteReader := none

namespace Server

def usualTools : List String :=
  ["ast_query", "search_symbols", "find_usages", "lookup_symbol", "explain_symbol",
    "module_summary",
    "lookup_symbols_batch", "list_files", "impact_analysis", "structural_search", "find_bridges",
      "hotspot_score",
    "search_comments", "index_status", "reindex", "pr_diff", "search_code_hybrid"]

def historyTools : List String :=
  ["git_log", "git_blame", "file_churn"]

def storeTools : List String :=
  ["search_code", "store_context", "recall_context", "list_context", "forget_context",
    "search_commits"]

def documents : List String :=
  ["hammy://status"]

def tools (s : Server) : List String :=
  usualTools ++ (if s.system.isSome then historyTools else []) ++
    (if s.catalog.isSome then storeTools else [])

/-- The collections of the project, made where they do not exist; none if the vector store fails. -/
def openStore (config : Config) : HostM (Option Vector.Catalog) := do
  let opened ← Host.attempt do
    let c ← Host.openCatalog config.store config.project.name
    Host.onVectors c.ensureAll
    return c
  return opened.toOption

def saveGraph (root : Path) (g : Index.Graph) : HostM Unit := do
  let h ← get
  let files ← Index.Cache.save h.files root h.now g
  set { h with files := files }

/-- The graph that is stored in the project or, failing that, the graph of its files, which is then
stored. -/
def loadGraph (root : Path) (config : Config) (catalog : Option Vector.Catalog) :
    HostM Index.Graph := do
  match ← Index.Cache.load (← get).files root with
  | some g => return g
  | none =>
    let b ← Index.build config catalog { store := catalog.isSome }
    saveGraph root b.graph
    return b.graph

def openNotes (e : ExportSettings) : HostM (Option KeyValue.NoteReader) := do
  if !e.queryEnabled then return none
  let h ← get
  let reader : KeyValue.NoteReader :=
    { address := ⟨e.host, e.port, e.db, e.password⟩, keyPrefix := e.keyPrefix }
  let (r, reader, keys) := reader.connect h.keys
  set { h with keys := keys }
  return match r with
    | .ok _ => some reader
    | .error _ => none

def start (root : Path) (config : Config) : HostM Server := do
  let catalog ← openStore config
  let graph ← loadGraph root config catalog
  let readers ← Index.Readers.ofNames config.parsing.languages
  let system := (History.detect (← get).files root).toOption
  let notes ← openNotes config.exporting
  return { root, config, readers, graph, index := Search.buildIndex graph.nodes
           catalog, system, notes }

def noteLine (s : Server) (h : Host) (n : Node) : String :=
  match s.notes, h.keys with
  | some r, some store => r.line store n.id
  | _, _ => ""

def withAdvice (s : Server) (answer advice : String) : String :=
  if s.catalog.isSome then answer ++ "\n\n💾 " ++ advice else answer

def keepAs (why key : String) : String :=
  why ++ ": store_context(key='" ++ key ++ "', content='...')"

def recentCommits (s : Server) (now : Moment) (file : String) : ServiceM (List History.Commit) := do
  match s.system with
  | none => return []
  | some system =>
    return match ← Services.attempt (Services.onShell (History.log system now file 5)) with
      | .ok commits => commits
      | .error _ => []

def explainSymbol (s : Server) (h : Host) (name : String) : ServiceM String := do
  match explained .clients s.graph.nodes name with
  | [] => return notExplained name
  | found =>
    let sections ← found.mapM fun n => do
      let commits ← s.recentCommits h.now n.loc.file
      return Text.join "\n" (explainLines .clients (s.noteLine h) s.graph.nodes s.graph.edges n ++
        recentLines n.loc.file commits)
    return s.withAdvice (Text.join "\n\n" sections)
      (keepAs "If this is useful for future work, save it"
        (Text.replace " " "-" (Text.lower name) ++ "-research"))

def impactAnalysis (s : Server) (name : String) (depth : Int) (direction : String) : String :=
  s.withAdvice (Report.impactAnalysis s.graph.nodes s.graph.edges name depth direction)
    (keepAs "High blast radius? Save this before changing anything" (Text.lower name ++ "-impact"))

def fileChurn (s : Server) (now : Moment) (windowDays : Int) :
    ServiceM (Option (OrderedMap String Int)) := do
  match s.system with
  | none => return none
  | some system =>
    return match ← Services.attempt (Services.onShell (History.churn system now "" windowDays)) with
      | .ok counts => some (.ofList (counts.map fun (f, n) => (f, (n : Int))))
      | .error _ => none

def hotspotScore (s : Server) (now : Moment) (f : Hotspot.Filters) (top windowDays : Int) :
    ServiceM String := do
  let counts ← s.fileChurn now windowDays
  return match hotspotScore? .clients s.graph.nodes s.graph.edges counts windowDays f top with
    | none => noHotspots
    | some report =>
      s.withAdvice report (keepAs "Save this risk map before touching anything" "hotspot-risk-map")

def diffText (s : Server) (diff base head : String) (workingTree : Bool) :
    ServiceM (Except String String) := do
  let diff := Text.trim diff
  if !diff.isEmpty then return .ok diff
  match s.system with
  | none =>
    return .error ("No diff_text provided and VCS is not available. " ++
      "Paste a unified diff using the diff_text parameter.")
  | some system =>
    if workingTree then
      let base := if base.isEmpty then "HEAD" else base
      return (← Services.attempt (Services.onShell (History.diffWorkingTree system base))).mapError
        fun f =>
        "Failed to compute working tree diff: " ++ f.message
    else if base.isEmpty then
      return .error ("Provide either diff_text (raw unified diff), base_ref " ++
        "(e.g. 'main', 'HEAD~1'), or working_tree=True to compute the diff automatically.")
    else
      let head := if head.isEmpty then "HEAD" else head
      return (← Services.attempt (Services.onShell (History.diff system base head))).mapError
        fun f =>
        "Failed to compute diff from VCS: " ++ f.message

def reviewDiff (s : Server) (diff base head : String) (workingTree : Bool) (depth : Int) :
    ServiceM String := do
  match ← s.diffText diff base head workingTree with
  | .error why => return why
  | .ok diff =>
    if diff.isEmpty then return "Diff is empty — no changes to analyse."
    return diffReport .clients s.graph.nodes s.graph.edges diff depth

def status (s : Server) (now : Moment) : ServiceM String := do
  let notes? ← match s.catalog with
    | none => pure none
    | some c =>
      pure ((← Services.attempt (Services.onVectors (c.listNotes now ""))).toOption.map List.length)
  return statusReport s.config.project s.graph notes?

def mostFound : Int := 20

/-- Answers a request that changes nothing in the server; files and the time are those of a host. -/
def answer (s : Server) (h : Host) (r : Request) : ServiceM String := do
  let nodes := s.graph.nodes
  let edges := s.graph.edges
  match r with
  | .fileSymbols file asked => astQuery s.readers h.grammar h.files s.root file asked
  | .searchSymbols text f => return searchSymbols .clients nodes f text
  | .lookupSymbol name kind => return lookupSymbol (s.noteLine h) nodes name kind
  | .lookupBatch names => return lookupBatch (s.noteLine h) nodes names
  | .explainSymbol name => s.explainSymbol h name
  | .moduleSummary directory most kind language =>
    return moduleSummary nodes directory most kind language
  | .structuralSearch shape pattern limit => structuralSearch nodes shape pattern limit
  | .findUsages name file argument => return findUsages nodes edges name file argument
  | .searchHybrid text limit scope =>
    let found ← searchHybrid s.catalog (some s.index) nodes text (min limit mostFound) scope
    foundReport 3 text found
  | .impactAnalysis name depth direction => return s.impactAnalysis name depth direction
  | .hotspots top f days => s.hotspotScore h.now f top days
  | .reviewDiff diff base head workingTree depth => s.reviewDiff diff base head workingTree depth
  | .findBridges => return findBridges nodes edges
  | .listFiles language => return listFiles nodes language
  | .searchComments text symbol file limit => return searchComments nodes text symbol file limit
  | .status => s.status h.now
  | .log file limit => onSystem fun system => log system h.now file limit
  | .blame file => onSystem fun system => blame system file
  | .churn days => onSystem fun system => churn system h.now days
  | .searchMeaning text limit scope =>
    onStore fun c => do
      let found ← Services.onVectors (c.searchDiverse text
        { limit := min limit mostFound, language := scope.language, kind := scope.kind })
      foundReport 2 text found
  | .keepNote key content tags files days =>
    onStore fun c => keepNote c h.now key content tags files days
  | .recallNotes question key tag limit =>
    onStore fun c => recallNotes c h.now question key tag limit
  | .listNotes tag => onStore fun c => listNotes .clients c h.now tag
  | .forgetNote key => onStore fun c => forgetNote c h.now key
  | .searchCommits text limit => onStore fun c => searchCommits c text limit
  | .reindex _ => throw .noSuchTool
where
  onSystem (op : History.System → ServiceM String) : ServiceM String :=
    match s.system with
    | some system => op system
    | none => throw .noSuchTool
  onStore (op : Vector.Catalog → ServiceM String) : ServiceM String :=
    match s.catalog with
    | some c => op c
    | none => throw .noSuchTool

abbrev ServerM (α : Type) : Type := ExceptT Failure (StateM (Server × Host)) α

def onHost {α : Type} (op : HostM α) : ServerM α := do
  let (s, h) ← get
  let (r, h) := op.run.run h
  set (s, h)
  match r with
  | .ok a => return a
  | .error f => throw f

def withGraph (s : Server) (g : Index.Graph) : Server :=
  { s with graph := g, index := Search.buildIndex g.nodes }

/-- Indexes the project anew. A failure before the graph is complete leaves everything as it was. -/
def reindex (r : RenewalRequest) : ServerM String := do
  let (s, _) ← get
  let hasStore := s.catalog.isSome
  let b ← onHost (Index.build s.config s.catalog (r.options hasStore))
  modify fun (s, h) => (s.withGraph b.graph, h)
  onHost (saveGraph s.root b.graph)
  return renewalReport r hasStore b.report

def serve (r : Request) : ServerM String := do
  match r with
  | .reindex renewal => reindex renewal
  | r =>
    let (s, h) ← get
    onHost (Host.onServices (s.answer h r))

def call (tool : String) (arguments : Json) : ServerM String := do
  let (s, _) ← get
  let r ← Request.among (s.tools ++ documents) tool arguments
  serve r

end Server

end CodeAtlas.Tool
