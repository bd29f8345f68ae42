import CodeAtlas.Report.Calls
import CodeAtlas.Report.Explain
import CodeAtlas.Report.File
import CodeAtlas.Tool.Request
import CodeAtlas.Tool.Shared

/-!
# The explorer

The tools of the agent that explores the code of a project.
-/

namespace CodeAtlas.Tool

open Report

structure Explorer where
  root : Path
  readers : Index.Readers
  graph : Index.Graph := {}
  index : Option Search.WordIndex := none
  catalog : Option Vector.Catalog := none

namespace Explorer

def graphTools : List String :=
  ["ast_query", "search_symbols", "search_code_hybrid", "lookup_symbol", "explain_symbol",
    "module_summary",
    "lookup_symbols_batch", "structural_search", "find_usages", "impact_analysis", "hotspot_score",
      "pr_diff",
    "find_bridges", "list_files", "search_comments"]

def memoryTools : List String :=
  ["store_context", "recall_context", "list_context"]

def tools (e : Explorer) : List String :=
  graphTools ++ if e.catalog.isSome then memoryTools else []

def mostFound : Int := 25

def reviewDiff (e : Explorer) (diff : String) (depth : Int) : String :=
  let diff := Text.trim diff
  if diff.isEmpty then "diff_text is empty. Paste a unified diff (output of 'git diff')."
  else diffReport .agents e.graph.nodes e.graph.edges diff depth

def answer (e : Explorer) (h : Host) (r : Request) : ServiceM String := do
  let nodes := e.graph.nodes
  let edges := e.graph.edges
  match r, e.catalog with
  | .fileSymbols file asked, _ => astQuery e.readers h.grammar h.files e.root file asked
  | .searchSymbols text f, _ => return searchSymbols .agents nodes f text
  | .lookupSymbol name kind, _ => return lookupSymbol (fun _ => "") nodes name kind
  | .lookupBatch names, _ => return lookupBatch (fun _ => "") nodes names
  | .explainSymbol name, _ => return explainSymbol nodes edges name
  | .moduleSummary directory most kind language, _ =>
    return moduleSummary nodes directory most kind language
  | .structuralSearch s pattern limit, _ => structuralSearch nodes s pattern limit
  | .findUsages name file argument, _ => return findUsages nodes edges name file argument
  | .searchHybrid text limit scope, catalog =>
    let limit := min limit mostFound
    let found ← searchHybrid catalog e.index nodes text limit scope
    foundBriefly text limit found
  | .impactAnalysis name depth direction, _ =>
    return impactAnalysis nodes edges name depth direction
  | .hotspots top f days, _ =>
    return (hotspotScore? .agents nodes edges none days f top).getD noHotspots
  | .reviewDiff diff _ _ _ depth, _ => return e.reviewDiff diff depth
  | .findBridges, _ => return findBridges nodes edges
  | .listFiles language, _ => return listFiles nodes language
  | .searchComments text symbol file limit, _ => return searchComments nodes text symbol file limit
  | .keepNote key content tags files _, some c => keepNote c h.now key content tags files 0
  | .recallNotes question key tag limit, some c => recallNotes c h.now question key tag limit
  | .listNotes tag, some c => listNotes .agents c h.now tag
  | _, _ => throw .noSuchTool

/-- Answers a call. Agents have to give the diff that they ask about. -/
def call (e : Explorer) (h : Host) (tool : String) (arguments : Json) : ServiceM String := do
  let r ← Request.among e.tools tool arguments
  if tool == "pr_diff" then discard (need arguments "diff_text")
  e.answer h r

end Explorer

end CodeAtlas.Tool
