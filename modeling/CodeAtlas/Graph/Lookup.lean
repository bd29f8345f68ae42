import CodeAtlas.Graph.Edge
import CodeAtlas.Graph.Names
import CodeAtlas.Text.WholeWord

/-!
# Looking up nodes and calls

A list of nodes is read as an index: by identifier, where the node listed last counts, and by name
with case ignored.
-/

namespace CodeAtlas

/-- The node with an identifier; of several, the last. -/
def nodeWithId? (nodes : List Node) (id : String) : Option Node :=
  nodes.reverse.find? fun n => n.id == id

def nodesNamed (nodes : List Node) (name : String) : List Node :=
  let low := Text.lower name
  nodes.filter fun n => Text.lower n.name == low

def callEdgesOf (edges : List Edge) : List Edge :=
  edges.filter fun e => e.relation == .calls

def symbolsOf (nodes : List Node) : List Node :=
  nodes.filter fun n => !n.isComment

def commentsOn (nodes : List Node) (name : String) : List Node :=
  nodes.filter fun n => n.isComment && n.traits.parentSymbol == name

/-- Whether a filter lets a text through: an empty filter always does, others if they stand in the
text with case ignored. -/
def passesFilter (filter text : String) : Bool :=
  filter.isEmpty || Text.contains (Text.lower text) (Text.lower filter)

def passesExact (wanted value : String) : Bool :=
  wanted.isEmpty || value == wanted

end CodeAtlas
