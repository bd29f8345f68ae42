import CodeAtlas.Graph.Lookup

/-!
# Links between indexed symbols

A call, a base class or an implemented interface is recorded by name. For the view these edges are
led to every symbol whose bare name is the callee that the edge names; an edge for which there is
none stays as it is.
-/

namespace CodeAtlas.View

def isCalleeCut (c : Char) : Bool :=
  c == ':' || c == '\\' || c == '.' || c == 's'

def linkedName (context : String) : String :=
  Text.lower (calleeBy isCalleeCut context)

def isNamed : Relation → Bool
  | .calls | .inherits | .implements => true
  | .imports | .defines | .networksTo => false

def idsNamed (symbols : List Node) (lowName : String) : List String :=
  (symbols.filter fun n => Text.lower (bareName n.name) == lowName).map (·.id)

def linksOf (symbols : List Node) (e : Edge) : List Edge :=
  if isNamed e.relation then
    match (idsNamed symbols (linkedName e.context)).filter (· != e.source) with
    | [] => [e]
    | targets => targets.map fun t => { e with target := t }
  else [e]

def resolveLinks (nodes : List Node) (edges : List Edge) : List Edge :=
  edges.flatMap (linksOf (symbolsOf nodes))

end CodeAtlas.View
