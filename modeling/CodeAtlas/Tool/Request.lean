import CodeAtlas.Report.Risk
import CodeAtlas.Report.Shape
import CodeAtlas.Report.Status
import CodeAtlas.Search.Hybrid

/-!
# Requests to tools

What agents and clients can ask for. A call names a tool and gives its arguments by name; arguments
that are left out have defaults.
-/

namespace CodeAtlas.Tool

inductive Request where
  | fileSymbols (file asked : String)
  | searchSymbols (text : String) (filter : Report.SymbolFilter)
  | lookupSymbol (name kind : String)
  | lookupBatch (names : String)
  | explainSymbol (name : String)
  | moduleSummary (directory : String) (most : Int) (kind language : String)
  | structuralSearch (shape : Report.Shape) (pattern : String) (limit : Int)
  | findUsages (name file argument : String)
  | searchHybrid (text : String) (limit : Int) (scope : Search.Scope)
  | searchMeaning (text : String) (limit : Int) (scope : Search.Scope)
  | impactAnalysis (name : String) (depth : Int) (direction : String)
  | hotspots (top : Int) (filters : Hotspot.Filters) (windowDays : Int)
  /-- The reach of a diff, which is given or made from two revisions. -/
  | reviewDiff (diff base head : String) (workingTree : Bool) (depth : Int)
  | findBridges
  | listFiles (language : String)
  | searchComments (text symbol file : String) (limit : Int)
  | keepNote (key content tags files : String) (days : Int)
  | recallNotes (question key tag : String) (limit : Int)
  | listNotes (tag : String)
  | forgetNote (key : String)
  | log (file : String) (limit : Int)
  | blame (file : String)
  | churn (windowDays : Int)
  | searchCommits (text : String) (limit : Int)
  | status
  | reindex (renewal : Report.RenewalRequest)

def need (arguments : Json) (key : String) : Except Failure String :=
  match (arguments.get? key).bind Json.text? with
  | some s => .ok s
  | none => .error .wrongType

def text (arguments : Json) (key : String) (default : String := "") : String :=
  ((arguments.get? key).bind Json.text?).getD default

def number (arguments : Json) (key : String) (default : Int) : Int :=
  ((arguments.get? key).bind Json.int?).getD default

def truth (arguments : Json) (key : String) : Bool :=
  ((arguments.get? key).bind Json.bool?).getD false

def scope (arguments : Json) : Search.Scope :=
  ⟨text arguments "language", text arguments "node_type"⟩

def shape (arguments : Json) : Report.Shape where
  kind := text arguments "node_type"
  language := text arguments "language"
  visibility := text arguments "visibility"
  asyncOnly := truth arguments "async_only"
  leastParameters := number arguments "min_params" 0
  mostParameters := number arguments "max_params" (-1)
  returnType := text arguments "return_type"
  file := text arguments "file_filter"
  leastComplexity := number arguments "min_complexity" 0

def Request.ofCall (tool : String) (a : Json) : Except Failure Request := do
  match tool with
  | "ast_query" => return .fileSymbols (← need a "file_path") (text a "query_type" "all")
  | "search_symbols" =>
    return .searchSymbols (← need a "query")
      ⟨text a "language", text a "node_type", text a "file_filter"⟩
  | "lookup_symbol" => return .lookupSymbol (← need a "name") (text a "node_type")
  | "lookup_symbols_batch" => return .lookupBatch (← need a "names")
  | "explain_symbol" => return .explainSymbol (← need a "name")
  | "module_summary" =>
    return .moduleSummary (← need a "directory") (number a "max_per_file" 10) (text a "node_type")
      (text a "language")
  | "structural_search" =>
    return .structuralSearch (shape a) (text a "name_pattern") (number a "limit" 50)
  | "find_usages" =>
    return .findUsages (← need a "symbol_name") (text a "file_filter") (text a "argument_filter")
  | "search_code_hybrid" => return .searchHybrid (← need a "query") (number a "limit" 10) (scope a)
  | "search_code" => return .searchMeaning (← need a "query") (number a "limit" 10) (scope a)
  | "impact_analysis" =>
    return .impactAnalysis (← need a "symbol_name") (number a "depth" 3)
      (text a "direction" "callers")
  | "hotspot_score" =>
    return .hotspots (number a "top_n" 20)
      ⟨text a "node_type", text a "language", text a "file_filter"⟩ (number a "window_days" 90)
  | "pr_diff" =>
    return .reviewDiff (text a "diff_text") (text a "base_ref") (text a "head_ref")
      (truth a "working_tree") (number a "depth" Change.usualDepth)
  | "find_bridges" => return .findBridges
  | "list_files" => return .listFiles (text a "language")
  | "search_comments" =>
    return .searchComments (text a "pattern") (text a "symbol") (text a "file_filter")
      (number a "limit" 50)
  | "store_context" =>
    return .keepNote (← need a "key") (← need a "content") (text a "tags") (text a "source_files")
      (number a "ttl_days" 0)
  | "recall_context" =>
    return .recallNotes (text a "query") (text a "key") (text a "tag") (number a "limit" 5)
  | "list_context" => return .listNotes (text a "tag")
  | "forget_context" => return .forgetNote (← need a "key")
  | "git_log" | "vcs_log" => return .log (text a "file_path") (number a "limit" 20)
  | "git_blame" | "vcs_blame" => return .blame (← need a "file_path")
  | "file_churn" | "vcs_churn" => return .churn (number a "window_days" 90)
  | "search_commits" => return .searchCommits (← need a "query") (number a "limit" 10)
  | "index_status" | "hammy://status" => return .status
  | "reindex" => return .reindex ⟨truth a "update_qdrant", truth a "enrich"⟩
  | _ => throw .noSuchTool

def Request.among (tools : List String) (tool : String) (a : Json) : Except Failure Request :=
  if tools.contains tool then Request.ofCall tool a else .error .noSuchTool

end CodeAtlas.Tool
