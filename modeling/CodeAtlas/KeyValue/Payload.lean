import CodeAtlas.Data.Leading
import CodeAtlas.Graph.Codec

/-!
# What is exported about a function
-/

namespace CodeAtlas.KeyValue

/-- How many lines above a function its comments may end. -/
def commentReach : Int := 5

def belongsTo (comment function : Node) : Bool :=
  comment.loc.file == function.loc.file &&
    ((function.loc.first ≤ comment.loc.first && comment.loc.first ≤ function.loc.last) ||
      (comment.loc.last < function.loc.first && function.loc.first - comment.loc.last ≤
        commentReach))

def textOrNull (s : String) : Json :=
  if s.isEmpty then .null else .str s

def exportedChange (c : Change) : Json :=
  .obj [("rev", .str c.revision), ("author", .str c.author), ("date", .str c.date),
    ("message", .str c.message)]

def payload (n : Node) (comments : List Node) (depth : Int) (indexedAt : String) : Json :=
  let history := n.history.getD {}
  .obj [
    ("id", .str n.id), ("name", .str n.name), ("type", .str n.kind.word), ("file", .str n.loc.file),
    ("start_line", .int n.loc.first), ("end_line", .int n.loc.last), ("language", .str n.language),
    ("parent", textOrNull n.traits.parentSymbol), ("visibility", .ofText? n.traits.visibility),
    ("parameters", .texts n.traits.parameters), ("return_type", .ofText? n.traits.returnType),
    ("is_async", .bool n.traits.isAsync), ("summary", textOrNull n.summary),
    ("comments", .texts ((comments.filter (belongsTo · n)).map (·.name))),
    ("commits", .arr ((leading depth history.changes).map exportedChange)),
    ("churn_rate", .int history.churnRate), ("blame_owners", .texts history.owners),
    ("indexed_at", .str indexedAt), ("meta", .arr [])]

end CodeAtlas.KeyValue
