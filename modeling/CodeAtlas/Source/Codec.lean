import CodeAtlas.Json.Expect
import CodeAtlas.Source.Tree

/-!
# Syntax trees as JSON

A node is written as a list of its kind, where it starts, where it stops and, if it has any, the
list of its children.
-/

namespace CodeAtlas.Source.Tree

def position (v : Json) : Nat :=
  (v.int?.getD 0).toNat

mutual

/-- Reads a tree; what is not written like a node is a node without kind and span. -/
def ofJson : Json → Tree
  | .arr [.str kind, start, stop, .arr children] =>
    .node kind (position start) (position stop) (allOfJson children)
  | .arr (.str kind :: start :: stop :: _) => .node kind (position start) (position stop) []
  | _ => .node "" 0 0 []

def allOfJson : List Json → List Tree
  | [] => []
  | v :: rest => ofJson v :: allOfJson rest

end

end CodeAtlas.Source.Tree
