import CodeAtlas.Report.Symbol

/-!
# Everything about one symbol

The definition of a symbol together with its direct callers and callees, its neighbours in the same
file and the comments on it.
-/

namespace CodeAtlas.Report

def mostShown : Nat := 10

def directCallers (nodes : List Node) (calls : List Edge) (n : Node) : List Node :=
  calls.filterMap fun e =>
    if Text.containsWord (lastSegment false n.name) e.context then nodeWithId? nodes e.source
      else none

def directCallees (nodes : List Node) (calls : List Edge) (n : Node) : List Node :=
  (calls.filter fun e => e.source == n.id).filterMap fun e =>
    (nodesNamed (symbolsOf nodes) (calleeName e.context)).head?

def neighbourRank : NodeKind → Nat
  | .classDecl => 0
  | .method => 1
  | .function => 2
  | _ => 3

def neighbours (a : Audience) (nodes : List Node) (n : Node) : List Node :=
  let others := nodes.filter fun m =>
    m.loc.file == n.loc.file && m.id != n.id && (a == .clients || !m.isComment)
  others.mergeSort fun x y =>
    neighbourRank x.kind < neighbourRank y.kind ||
      (neighbourRank x.kind == neighbourRank y.kind && x.loc.first ≤ y.loc.first)

def relatedLines (heading : String) (found : List Node) : List String :=
  match found.take mostShown with
  | [] => ["\n" ++ heading ++ ": none found"]
  | shown =>
    ("\n" ++ heading ++ " (" ++ toString shown.length ++ " shown):") :: shown.map fun c => "  " ++
      placed c

def neighbourLines (a : Audience) (nodes : List Node) (n : Node) : List String :=
  match (neighbours a nodes n).take mostShown with
  | [] => []
  | shown =>
    ("\nSiblings in " ++ n.loc.file ++ " (" ++ toString shown.length ++ " shown):") ::
      shown.map fun s => "  " ++ title s ++ visibilityTag s ++ " (line " ++ toString s.loc.first ++
        ")"

def commentHint (nodes : List Node) (n : Node) : List String :=
  match commentsOn nodes n.name with
  | [] => []
  | found =>
    ["\nComments: " ++ toString found.length ++ " attached — call search_comments(symbol='" ++
      bareName n.name ++ "') for full context"]

def explainLines (a : Audience) (notes : Node → String) (nodes : List Node) (edges : List Edge)
    (n : Node) :
    List String :=
  let calls := callEdgesOf edges
  ["=== " ++ title n ++ " ==="] ++ details n ++ [Text.trim (notes n)].filter (!·.isEmpty) ++
    relatedLines "Callers" (directCallers nodes calls n) ++
    relatedLines "Callees" (directCallees nodes calls n) ++
    neighbourLines a nodes n ++ commentHint nodes n

/-- The symbols that a name asks for: those with this name, or else those that mention it. Agents
then also get comments. -/
def explained (a : Audience) (nodes : List Node) (name : String) : List Node :=
  match nodesNamed (symbolsOf nodes) name with
  | [] => (nodesMentioning (if a == .agents then nodes else symbolsOf nodes) name).take 5
  | found => found.take 5

def notExplained (name : String) : String :=
  "Symbol '" ++ name ++ "' not found."

def explainSymbol (nodes : List Node) (edges : List Edge) (name : String) : String :=
  match explained .agents nodes name with
  | [] => notExplained name
  | found => Text.join "\n\n" (found.map fun n =>
      Text.join "\n" (explainLines .agents (fun _ => "") nodes edges n))

end CodeAtlas.Report
