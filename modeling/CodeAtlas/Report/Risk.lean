import CodeAtlas.Analysis.Bridge
import CodeAtlas.Analysis.Hotspot
import CodeAtlas.Change.Impact
import CodeAtlas.Decimal.Fixed
import CodeAtlas.Report.Symbol

/-!
# Reports on risk

Hotspots, the reach of a diff, and the bridges between languages.
-/

namespace CodeAtlas.Report

def mostHotspots : Int := 50

def riskTags (n : Node) : String :=
  match [n.traits.visibility.getD "", if n.traits.isAsync then "async" else ""].filter
    (!·.isEmpty) with
  | [] => ""
  | tags => " [" ++ Text.join ", " tags ++ "]"

def hotspotLines (a : Audience) (nodes : List Node) (rank : Nat) (e : Hotspot.Entry Float) :
    List String :=
  let n := e.node
  let start :=
    "#" ++ Text.padLeft 2 (toString rank) ++ " [score=" ++ Decimal.fixed 1 e.score ++ "] " ++
    title n ++ riskTags n
  let line := match a with
    | .agents =>
      start ++ " (" ++ place n ++ ")  callers=" ++ toString e.callers ++ "  churn=" ++
        toString e.churn
    | .clients => start ++ "\n     " ++ place n ++ "\n     callers: " ++ toString e.callers ++
        "  |  churn: " ++ toString e.churn
  [line] ++ (if n.summary.isEmpty then [] else ["     " ++ n.summary]) ++
    (commentsOn nodes n.name).map fun c => "     " ++ commentFlag c

def churnRemark (a : Audience) (fileChurn : Option (OrderedMap String Int)) (windowDays : Int)
    (found : List (Hotspot.Entry Float)) : String :=
  match a with
  | .agents => if found.any (0 < ·.churn) then ""
      else " (no churn data — scoring by caller count only)"
  | .clients =>
    if fileChurn.any fun m => !m.entries.isEmpty then " (churn window: " ++ toString windowDays ++
      "d)"
    else " (no VCS churn data — scoring by callers only)"

def hotspotScore? (a : Audience) (nodes : List Node) (edges : List Edge)
    (fileChurn : Option (OrderedMap String Int)) (windowDays : Int) (f : Hotspot.Filters)
    (top : Int) :
    Option String :=
  match Hotspot.hotspots nodes edges fileChurn f (min top mostHotspots) with
  | [] => none
  | found =>
    let header := "Top " ++ toString found.length ++ " hotspots" ++
      churnRemark a fileChurn windowDays found ++ ":\n"
    let lines := (found.mapIdx fun i e => hotspotLines a nodes (i + 1) e).flatten
    some (Text.join (if a == .agents then "\n" else "\n\n") (header :: lines))

def noHotspots : String :=
  "No symbols found matching the given filters."

def highRisk : Nat := 5

def riskWord (callers : Nat) : String :=
  if highRisk ≤ callers then "HIGH" else if 2 ≤ callers then "MED" else "LOW"

def changeLine (f : Change.FileChange) : String :=
  let symbols := if f.symbols.isEmpty then ""
    else "  [" ++ Text.join ", " (f.symbols.take 5) ++ (if 5 < f.symbols.length then "…" else "") ++
      "]"
  "  [" ++ Text.padRight 8 f.status.word ++ "] " ++ f.path ++ symbols

def indexedImpacts (r : Change.Report) : List (Node × List Node) :=
  r.impacts.filterMap fun
    | .indexed n callers => some (n, callers)
    | .unindexed _ => none

def unindexedImpacts (r : Change.Report) : List String :=
  r.impacts.filterMap fun
    | .indexed .. => none
    | .unindexed s => some s

def impactLines (a : Audience) (nodes : List Node) (n : Node) (callers : List Node) : List String :=
  let shown := if a == .agents then 4 else 5
  let tag := if a == .agents then "" else visibilityTag n
  let summary := if a == .agents || n.summary.isEmpty then [] else ["         " ++ n.summary]
  let more := if callers.length ≤ shown then []
    else ["         … and " ++ toString (callers.length - shown) ++
      (if a == .agents then " more" else " more callers")]
  let comments := match commentsOn nodes n.name with
    | [] => []
    | found =>
      ("  Comments on " ++ n.name ++ ":") :: found.map fun c => "    " ++ place c ++ ": " ++ c.name
  ["  [" ++ riskWord callers.length ++ "] " ++ title n ++ tag ++ "  (" ++ place n ++
    ")  callers=" ++
      toString callers.length] ++ summary ++ (callers.take shown).map
        (fun c => "         ← " ++ placed c) ++
    more ++ comments

def unindexedLines (a : Audience) (symbols : List String) : List String :=
  if symbols.isEmpty then []
  else
    match a with
    | .agents => ["\nNew/unindexed symbols: " ++ Text.join ", " symbols]
    | .clients => "\nNew/unindexed symbols (not yet in graph):" :: symbols.map ("  + " ++ ·)

def highRiskLines (a : Audience) (indexed : List (Node × List Node)) : List String :=
  match indexed.filter fun (_, callers) => highRisk ≤ callers.length with
  | [] => []
  | risky =>
    let start := "\n⚠  " ++ toString risky.length
    match a with
    | .agents => [start ++ " HIGH-RISK change(s): " ++ Text.join ", " (risky.map (·.1.name))]
    | .clients => (start ++ " HIGH-RISK symbol(s) changed (5+ callers):") ::
        risky.map fun (n, callers) => "   • " ++ n.name ++ " — " ++ toString callers.length ++
          " callers"

def diffReport (a : Audience) (nodes : List Node) (edges : List Edge) (diff : String)
    (depth : Int) : String :=
  let r := Change.analyze diff nodes edges depth
  if r.files.isEmpty then "Could not parse any changed files from the diff."
  else
    let indexed := indexedImpacts r
    let header := "PR Diff Analysis  (" ++ toString r.files.length ++ " file(s) changed, " ++
      toString r.symbols.length ++ " symbol(s) detected)\n"
    let impacts := if indexed.isEmpty then []
      else ("\nImpact analysis (depth=" ++ toString depth ++ "):\n") ::
        indexed.flatMap fun (n, callers) => impactLines a nodes n callers
    Text.join "\n" ([header, "Changed files:"] ++ r.files.map changeLine ++ impacts ++
      unindexedLines a (unindexedImpacts r) ++ highRiskLines a indexed)

def findBridges (nodes : List Node) (edges : List Edge) : String :=
  orElse "No cross-language bridges found." ((Bridge.resolve nodes edges).map fun b =>
    "BRIDGE: " ++ b.context ++ " (confidence: " ++ Decimal.percent b.confidence ++ ")")

end CodeAtlas.Report
