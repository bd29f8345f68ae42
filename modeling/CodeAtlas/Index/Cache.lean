import CodeAtlas.Graph.Codec
import CodeAtlas.Json.Writer
import CodeAtlas.Project.Storing

/-!
# The stored index

The graph of a project is stored in a file of its directory, so that it need not be read off the
sources again. A stored graph that cannot be read back counts as none.
-/

namespace CodeAtlas.Index

structure Graph where
  nodes : List Node := []
  edges : List Edge := []
deriving Inhabited

namespace Cache

def directory (root : Path) : Path :=
  root.child ".hammy"

def path (root : Path) : Path :=
  (directory root).child "index.json"

def value (now : Moment) (g : Graph) : Json :=
  .obj [("indexed_at", .str now.toText), ("node_count", .int g.nodes.length),
    ("edge_count", .int g.edges.length),
    ("nodes", .arr (g.nodes.map Node.toJson)), ("edges", .arr (g.edges.map Edge.toJson))]

def text (now : Moment) (g : Graph) : String :=
  Json.write .compact (value now g)

/-- Stores a graph, unless something else stands in its place. -/
def save (files : Files) (root : Path) (now : Moment) (g : Graph) : Except Failure Files := do
  let files ← files.ensureDir (directory root)
  files.writeText (path root) (text now g)

/-- The elements of a stored list. Where nothing is stored, an empty text or an empty object will
do. -/
def elements? (v : Json) (key : String) : Option (List Json) :=
  match v.get? key with
  | some (.arr items) => some items
  | some (.obj []) => some []
  | some (.str "") => some []
  | _ => none

def ofText? (text : String) : Option Graph := do
  let v ← Json.parse? text
  let nodes ← (← elements? v "nodes").mapM Node.ofJson?
  let edges ← (← elements? v "edges").mapM Edge.ofJson?
  return ⟨nodes, edges⟩

def load? (files : Files) (root : Path) : Option Graph :=
  (files.text? (path root)).bind ofText?

def load (files : Files) (root : Path) : Except Failure (Option Graph) := do
  files.look (path root)
  return load? files root

/-- What is known about a stored graph without reading it: when it was stored and how large it
is. -/
structure Info where
  indexedAt : Json
  nodeCount : Json
  edgeCount : Json

def info? (files : Files) (root : Path) : Option Info := do
  let v ← (files.text? (path root)).bind Json.parse?
  guard v.isObject
  return {
    indexedAt := (v.get? "indexed_at").getD .null
    nodeCount := (v.get? "node_count").getD (.int 0)
    edgeCount := (v.get? "edge_count").getD (.int 0) }

def info (files : Files) (root : Path) : Except Failure (Option Info) := do
  files.look (path root)
  return info? files root

end Cache

end CodeAtlas.Index
