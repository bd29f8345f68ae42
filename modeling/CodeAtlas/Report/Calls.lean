import CodeAtlas.Report.Symbol

/-!
# Reports on calls

Where a symbol is called, what depends on it over several calls, and what it depends on itself.
-/

namespace CodeAtlas.Report

def callSites (nodes : List Node) (edges : List Edge) (name file argument : String) :
    List (Node × String) :=
  (callEdgesOf edges).filterMap fun e =>
    if Text.containsWord name e.context && passesFilter argument e.context then
      ((nodeWithId? nodes e.source).filter fun n => passesFilter file n.loc.file).map (·, e.context)
    else none

def mostSites : Nat := 30

def findUsages (nodes : List Node) (edges : List Edge) (name file argument : String) : String :=
  match callSites nodes edges name file argument with
  | [] =>
    "No call sites of '" ++ name ++ "' found. Check spelling (search is exact/word-boundary). " ++
      "Use search_symbols to find the definition first."
  | sites =>
    let header := "Call sites of '" ++ name ++ "' (" ++ toString sites.length ++ " found):"
    let lines := (sites.take mostSites).map fun (n, context) =>
      "  " ++ placed n ++ " → calls: " ++ context
    let more := if mostSites < sites.length then
        ["\n... and " ++ toString (sites.length - mostSites) ++ " more. Use file_filter to narrow."]
      else []
    Text.join "\n" (header :: lines ++ more)

/-- A step of a walk through calls: the nodes reached, with the name or call that led to them. -/
abbrev Hop := List (Node × String)

def byFile (hop : Hop) : Hop :=
  hop.mergeSort fun a b => !(b.1.loc.file < a.1.loc.file)

/-- The callers of some names that were not reached before, one for each call. A call is known by
the bare name of its callee. -/
def callersOf (nodes : List Node) (calls : List Edge) (names reached : List String) : Hop :=
  calls.filterMap fun e =>
    (names.find? fun name => Text.containsWord (bareName name) e.context).bind fun name =>
      ((nodeWithId? nodes e.source).filter fun n => !reached.contains n.id).map (·, name)

def callerHops (nodes : List Node) (calls : List Edge) :
    (depth : Nat) → (names reached : List String) → List Hop
  | 0, _, _ => []
  | n + 1, names, reached =>
    match callersOf nodes calls names reached with
    | [] => []
    | found =>
      let hop := byFile found
      hop :: callerHops nodes calls n (distinct (hop.map (·.1.name))) (reached ++ hop.map (·.1.id))

def calleesOf (nodes : List Node) (calls : List Edge) (ids reached : List String) : Hop :=
  calls.filterMap fun e =>
    let callee := calleeName e.context
    if ids.contains e.source && !callee.isEmpty then
      ((nodesNamed nodes callee).find? fun n => !reached.contains n.id).map (·, e.context)
    else none

def calleeHops (nodes : List Node) (calls : List Edge) :
    (depth : Nat) → (ids reached : List String) → List Hop
  | 0, _, _ => []
  | n + 1, ids, reached =>
    match calleesOf nodes calls ids reached with
    | [] => []
    | found =>
      let hop := byFile found
      hop :: calleeHops nodes calls n (hop.map (·.1.id)) (reached ++ hop.map (·.1.id))

def reachedCount (hops : List Hop) : Nat :=
  hops.flatten.length

/-- At which hop the walk ended: after the last one, or where the first one without a result was
tried. -/
def lastHop (depth : Nat) (hops : List Hop) : Nat :=
  min (hops.length + 1) depth

def hopLines (line : (hop : Nat) → Node × String → List String) (hops : List Hop) : List String :=
  (hops.mapIdx fun i hop => ("\nHop " ++ toString (i + 1) ++ ":") ::
    hop.flatMap (line (i + 1))).flatten

def hopIndent (hop : Nat) : String :=
  String.ofList (List.replicate (2 * hop) ' ')

def callerLines (nodes : List Node) (hop : Nat) (c : Node × String) : List String :=
  (hopIndent hop ++ placed c.1 ++ " calls " ++ c.2) ::
    (if hop == 1 then (commentsOn nodes c.1.name).map fun m => "    " ++ commentFlag m else [])

def callersPart (nodes : List Node) (calls : List Edge) (name : String) (depth : Nat) :
    List String :=
  let hops := callerHops nodes calls depth [name] []
  ["=== Callers of '" ++ name ++ "' (what breaks if it changes) ==="] ++
    hopLines (callerLines nodes) hops ++
    [if hops.isEmpty then "  No callers found for '" ++ name ++ "'."
      else "\nTotal callers found: " ++ toString (reachedCount hops) ++ " across " ++
        toString (lastHop depth hops) ++ " hop(s)."]

def calleesPart (nodes : List Node) (calls : List Edge) (name : String) (depth : Nat) :
    List String :=
  ("\n=== Callees of '" ++ name ++ "' (what it depends on) ===") ::
    match (nodesNamed nodes name).map (·.id) with
    | [] => ["  Definition of '" ++ name ++ "' not found in index."]
    | ids =>
      let hops := calleeHops nodes calls depth ids ids
      hopLines (fun hop c => [hopIndent hop ++ placed c.1]) hops ++
        [if hops.isEmpty then "  No known callees found for '" ++ name ++ "'."
          else "\nTotal callees found: " ++ toString (reachedCount hops) ++ " across " ++
            toString (lastHop depth hops) ++ " hop(s)."]

def clampDepth (depth : Int) : Nat :=
  (max 1 (min depth 6)).toNat

def impactAnalysis (nodes : List Node) (edges : List Edge) (name : String) (depth : Int)
    (direction : String) :
    String :=
  let calls := callEdgesOf edges
  let d := clampDepth depth
  let callers :=
    if direction == "callers" || direction == "both" then callersPart nodes calls name d else []
  let callees :=
    if direction == "callees" || direction == "both" then calleesPart nodes calls name d else []
  orElse ("No call graph data found for '" ++ name ++ "'.") (callers ++ callees)

end CodeAtlas.Report
