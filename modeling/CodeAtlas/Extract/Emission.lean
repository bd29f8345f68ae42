import CodeAtlas.Graph.Edge
import CodeAtlas.Graph.Node
import CodeAtlas.Source.Tree

/-!
# What an extractor emits

An extractor reads a syntax tree and emits nodes and edges. Emissions are only ever appended, so
what a larger piece of a tree emits is the concatenation, in reading order, of what its parts emit.
Reading stops at the first span whose bytes are no text.
-/

namespace CodeAtlas.Extract

open Source (Tree Parsed)

/-- The outcome of reading: a result, or the first span that is no text. -/
abbrev Reads (α : Type) : Type :=
  Except Text.Utf8.Fault α

structure Emission where
  nodes : List Node := []
  edges : List Edge := []
deriving Inhabited

namespace Emission

def append (a b : Emission) : Emission :=
  ⟨a.nodes ++ b.nodes, a.edges ++ b.edges⟩

instance : Append Emission := ⟨append⟩

@[simp] theorem append_nodes (a b : Emission) : (a ++ b).nodes = a.nodes ++ b.nodes := rfl

@[simp] theorem append_edges (a b : Emission) : (a ++ b).edges = a.edges ++ b.edges := rfl

def ofNode (n : Node) : Emission :=
  { nodes := [n] }

def ofEdge (e : Edge) : Emission :=
  { edges := [e] }

def gather {α : Type} (emit : α → Reads Emission) : List α → Reads Emission
  | [] => .ok {}
  | a :: rest => do
    let first ← emit a
    let others ← gather emit rest
    return first ++ others

end Emission

structure Site where
  file : String
  language : String
  parsed : Parsed

namespace Site

def locate (s : Site) (t : Tree) : Location :=
  ⟨s.file, s.parsed.firstLine t, s.parsed.lastLine t⟩

def idOf (s : Site) (symbol : String) : String :=
  Node.makeId s.file symbol

def fileId (s : Site) : String :=
  s.idOf "__file__"

def symbol (s : Site) (kind : NodeKind) (name : String) (t : Tree) (traits : Traits := {})
    (summary : String := "") : Node :=
  { id := s.idOf name, kind := kind, name := name, loc := s.locate t, language := s.language,
    traits := traits, summary := summary }

def routeEndpoint (s : Site) (route : String) (t : Tree) : Node :=
  { id := s.idOf ("endpoint:" ++ route), kind := .endpoint, name := route, loc := s.locate t,
    language := s.language }

/-- An endpoint that a request in this file addresses. It has the same identifier in every file. -/
def requestEndpoint (s : Site) (url : String) (t : Tree) : Node :=
  { id := Node.makeId "" ("endpoint:" ++ url), kind := .endpoint, name := url, loc := s.locate t,
    language := s.language }

def importEdge (s : Site) (target context : String) : Edge :=
  { source := s.fileId, target := target, relation := .imports, context := context }

end Site

def definesEdge (source target : String) : Edge :=
  { source := source, target := target, relation := .defines }

def routeSummary : Option String → String
  | some route => "Route: " ++ route
  | none => ""

def nonEmpty? (route : Option String) : Option String :=
  route.filter fun r => !r.isEmpty

def routeEmission (s : Site) (owner : String) (t : Tree) : Option String → Emission
  | some route =>
    let endpoint := s.routeEndpoint route t
    { nodes := [endpoint], edges := [definesEdge owner endpoint.id] }
  | none => {}

end CodeAtlas.Extract
