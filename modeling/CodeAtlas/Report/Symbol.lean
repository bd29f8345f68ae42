import CodeAtlas.Data.Leading
import CodeAtlas.Graph.Lookup

/-!
# Reports on symbols

Finding symbols by name and showing what is known about them.
-/

namespace CodeAtlas.Report

/-- For whom a report is written: for the agents of the program, or for clients of its server, who
get a few details more. -/
inductive Audience where
  | agents
  | clients
deriving DecidableEq, Repr

def title (n : Node) : String :=
  n.kind.word ++ ": " ++ n.name

def place (n : Node) : String :=
  n.loc.file ++ ":" ++ toString n.loc.first

def span (n : Node) : String :=
  place n ++ "-" ++ toString n.loc.last

def placed (n : Node) : String :=
  title n ++ " (" ++ place n ++ ")"

def around (before : String) (text : Option String) (after : String := "") : String :=
  match text with
  | some s => if s.isEmpty then "" else before ++ s ++ after
  | none => ""

def visibilityTag (n : Node) : String :=
  around " [" n.traits.visibility "]"

def resultTag (n : Node) : String :=
  around " -> " n.traits.returnType

def summaryTag (n : Node) : String :=
  around " | " (some n.summary)

def details (n : Node) : List String :=
  ["file: " ++ span n, "language: " ++ n.language] ++
    [around "visibility: " n.traits.visibility,
      if n.traits.parameters.isEmpty then "" else "params: " ++ Text.join ", " n.traits.parameters,
      around "returns: " n.traits.returnType, if n.traits.isAsync then "async: true" else "",
      around "summary: " (some n.summary)].filter (!·.isEmpty)

def definition (notes : Node → String) (n : Node) : String :=
  title n ++ String.join ((details n).map ("\n  " ++ ·)) ++ notes n

def commentFlag (c : Node) : String :=
  "⚑ " ++ toString c.loc.first ++ ": " ++ c.name

def orElse (remark : String) (lines : List String) : String :=
  if lines.isEmpty then remark else Text.join "\n" lines

def fit? (low : String) (n : Node) : Option Nat :=
  let name := Text.lower n.name
  if name == low then some 4
  else if Text.startsWith name low then some 3
  else if Text.contains name low then some 2
  else if Text.contains (Text.lower n.summary) low then some 1
  else none

/-- What restricts a search; empty texts restrict nothing. -/
structure SymbolFilter where
  language : String := ""
  kind : String := ""
  file : String := ""

def SymbolFilter.pass (f : SymbolFilter) (n : Node) : Bool :=
  passesExact f.language n.language && passesExact f.kind n.kind.word &&
    passesFilter f.file n.loc.file

def fitting (nodes : List Node) (f : SymbolFilter) (asked : String) : List Node :=
  let low := Text.lower asked
  let found := ((symbolsOf nodes).filter f.pass).filterMap fun n => (fit? low n).map fun s => (s, n)
  let ranked := found.mergeSort fun a b =>
    b.1 < a.1 || (a.1 == b.1 && a.2.name.length ≤ b.2.name.length)
  ranked.map (·.2)

def mostFitting : Nat := 25

def fittingLine (a : Audience) (n : Node) : String :=
  match a with
  | .agents => placed n ++ summaryTag n
  | .clients => title n ++ " (" ++ span n ++ ")" ++ visibilityTag n ++ summaryTag n

def searchSymbols (a : Audience) (nodes : List Node) (f : SymbolFilter) (asked : String) : String :=
  match fitting nodes f asked with
  | [] => "No symbols matching '" ++ asked ++ "' found."
  | found =>
    let lines := (found.take mostFitting).map (fittingLine a)
    let more := if mostFitting < found.length then
        ["\n... and " ++ toString (found.length - mostFitting) ++
          " more. Use file_filter or node_type to narrow."]
      else []
    Text.join "\n" (lines ++ more)

def nodesMentioning (nodes : List Node) (name : String) : List Node :=
  nodes.filter fun n => Text.containsWord name n.name

/-- The report on the symbols with a name. Where there are none, symbols are shown in whose names it
stands as a whole word. -/
def lookupSymbol (notes : Node → String) (nodes : List Node) (name kind : String) : String :=
  let symbols := (symbolsOf nodes).filter fun n => passesExact kind n.kind.word
  let shown (found : List Node) : List String := (found.take 20).map (definition notes)
  match nodesNamed symbols name with
  | [] =>
    match nodesMentioning symbols name with
    | [] => "Symbol '" ++ name ++ "' not found. Try search_symbols for fuzzy matching."
    | found =>
      Text.join "\n\n" (("No exact match for '" ++ name ++ "', showing word-boundary matches:\n") ::
        shown found)
  | found => Text.join "\n\n" (shown found)

def lookupOne (notes : Node → String) (symbols : List Node) (name : String) : String :=
  let found := match nodesNamed symbols name with
    | [] => nodesMentioning symbols name
    | exact => exact
  match found with
  | [] => "Symbol '" ++ name ++ "' not found."
  | found => Text.join "\n\n" ((found.take 5).map (definition notes))

def commaParts (s : String) : List String :=
  ((Text.splitChar ',' s).map Text.trim).filter (!·.isEmpty)

def lookupBatch (notes : Node → String) (nodes : List Node) (names : String) : String :=
  match (commaParts names).take 20 with
  | [] => "Provide at least one symbol name."
  | names => Text.join "\n---\n" (names.map (lookupOne notes (symbolsOf nodes)))

end CodeAtlas.Report
