/-!
# Edges of the code graph

An edge relates two nodes by their identifiers. Its target need not be a node of the index: the
callee of a call is known by name only.
-/

namespace CodeAtlas

inductive Relation where
  | calls
  | imports
  | implements
  | defines
  | networksTo
  | inherits
deriving DecidableEq, Repr, Inhabited

namespace Relation

def all : List Relation :=
  [.calls, .imports, .implements, .defines, .networksTo, .inherits]

def word : Relation → String
  | .calls => "calls"
  | .imports => "imports"
  | .implements => "implements"
  | .defines => "defines"
  | .networksTo => "networks_to"
  | .inherits => "extends"

def ofWord? (w : String) : Option Relation :=
  all.find? fun r => r.word == w

end Relation

structure Edge where
  source : String
  target : String
  relation : Relation
  isBridge : Bool := false
  confidence : Float := 1.0
  /-- The piece of code, or the remark, that the edge was read off. -/
  context : String := ""
deriving Repr, Inhabited

end CodeAtlas
