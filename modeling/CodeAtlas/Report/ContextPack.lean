import CodeAtlas.Decimal.Fixed
import CodeAtlas.Graph.Edge
import CodeAtlas.Graph.Node
import CodeAtlas.Text.Split

/-!
# Context packs

A context pack gathers what was found for a question. It is written as a Markdown document: a
header, then a section each for the summary, the warnings, the entities by kind and the relations.
-/

namespace CodeAtlas.Report

structure ContextPack where
  query : String
  nodes : List Node := []
  edges : List Edge := []
  warnings : List String := []
  summary : String := ""

def kindHeading (k : NodeKind) : String :=
  match k.word.toList with
  | c :: rest => String.ofList (c.toUpper :: rest) ++ "s"
  | [] => "s"

def shownText? (t : Option String) : Option String :=
  t.filter fun s => !s.isEmpty

def traitDetails (t : Traits) : List String :=
  ((shownText? t.visibility).map ("visibility: " ++ ·)).toList ++
    (if t.isAsync then ["async"] else []) ++
    ((shownText? t.returnType).map ("returns: " ++ ·)).toList ++
    (if t.parameters.isEmpty then [] else ["params: " ++ Text.join ", " t.parameters])

def historyLines (h : History) : List String :=
  (if 0 < h.churnRate then ["  - Churn: " ++ toString h.churnRate ++ " changes"] else []) ++
    (if h.owners.isEmpty then [] else ["  - Owners: " ++ Text.join ", " h.owners])

def entityLines (n : Node) : List String :=
  let place := n.loc.file ++ ":" ++ toString n.loc.first ++ "-" ++ toString n.loc.last
  let details := traitDetails n.traits
  ["- **" ++ n.name ++ "** (`" ++ place ++ "`, " ++ n.language ++ ")"] ++
    (if details.isEmpty then [] else ["  - " ++ Text.join ", " details]) ++
    (if n.summary.isEmpty then [] else ["  - " ++ n.summary]) ++
    (match n.history with
      | some h => historyLines h
      | none => [])

def kindLines (nodes : List Node) (k : NodeKind) : List String :=
  match nodes.filter fun n => n.kind == k with
  | [] => []
  | members => ["### " ++ kindHeading k ++ "\n"] ++ members.flatMap entityLines ++ [""]

def bridgeLine (e : Edge) : String :=
  "- " ++ e.context ++ " (confidence: " ++ Decimal.percent e.confidence ++ ")"

def dependencyLine (e : Edge) : String :=
  "- `" ++ e.source ++ "` —[" ++ e.relation.word ++ "]→ `" ++ e.target ++ "`" ++
    (if e.context.isEmpty then "" else " — " ++ e.context)

def titled (heading : String) : List String → List String
  | [] => []
  | lines => [heading ++ "\n"] ++ lines ++ [""]

def ContextPack.lines (p : ContextPack) : List String :=
  ["# Hammy Context Pack\n\n**Query:** " ++ p.query ++ "\n"] ++
    (if p.summary.isEmpty then [] else ["## Summary\n\n" ++ p.summary ++ "\n"]) ++
    titled "## Warnings" (p.warnings.map ("- " ++ ·)) ++
    (if p.nodes.isEmpty then []
      else ["## Code Entities\n"] ++ NodeKind.all.flatMap (kindLines p.nodes)) ++
    (if p.edges.isEmpty then []
      else ["## Relationships\n"] ++
        titled "### Cross-Language Bridges" ((p.edges.filter (·.isBridge)).map bridgeLine) ++
        titled "### Dependencies" ((p.edges.filter fun e => !e.isBridge).map dependencyLine))

def ContextPack.markdown (p : ContextPack) : String :=
  Text.join "\n" p.lines

end CodeAtlas.Report
