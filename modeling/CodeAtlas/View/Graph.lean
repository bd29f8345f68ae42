import CodeAtlas.Analysis.Hotspot
import CodeAtlas.Decimal.Fixed
import CodeAtlas.Index.Cache
import CodeAtlas.View.Links

/-!
# The graph view

The view shows the stored graph of a project: a few numbers, a search by name, the neighbourhood of
a symbol and the hotspots.
-/

namespace CodeAtlas

/-- An order in which the members of sets are gone through; any order will do. -/
structure SetOrder where
  list : {α : Type} → List α → List α
  perm : ∀ {α : Type} (l : List α), (list l).Perm l

def SetOrder.asGiven : SetOrder where
  list l := l
  perm l := .refl l

structure View where
  project : String
  nodes : List Node
  links : List Edge
  hotspots : List (Hotspot.Entry Float)

namespace View

def mostHotspots : Int := 50

def ofGraph (project : String) (g : Index.Graph) : View :=
  ⟨project, g.nodes, resolveLinks g.nodes g.edges, Hotspot.hotspots g.nodes g.edges none {}
    mostHotspots⟩

def ofProject (files : Files) (root : Path) : Except Failure View := do
  match ← Index.Cache.load files root with
  | some g => .ok (ofGraph root.name g)
  | none => .error (.noIndex root.toText)

def degree (v : View) (id : String) : Nat :=
  v.links.countP (·.source == id) + v.links.countP (·.target == id)

def node? (v : View) (id : String) : Option Node :=
  nodeWithId? v.nodes id

def comments (v : View) (name : String) : List Node :=
  if name.isEmpty then [] else v.nodes.filter fun n => n.isComment && n.traits.parentSymbol == name

def stats (v : View) : Json :=
  let symbols := symbolsOf v.nodes
  .obj [("symbols", .int symbols.length), ("comments", .int (v.nodes.countP Node.isComment)),
    ("edges", .int v.links.length), ("files", .int (distinct (symbols.map (·.loc.file))).length),
    ("project", .str v.project)]

/-- The rank of a symbol among the results of a search: names that start with what was asked come
first, then those with many links. -/
def searchRank (v : View) (asked : String) (n : Node) : Nat × Int × String :=
  (if Text.startsWith (Text.lower n.name) asked then 0 else 1, -(v.degree n.id : Int),
    Text.lower n.name)

def rankBefore (a b : Nat × Int × String) : Bool :=
  a.1 < b.1 || (a.1 == b.1 && (a.2.1 < b.2.1 || (a.2.1 == b.2.1 && a.2.2 < b.2.2)))

def search (v : View) (asked : String) (limit : Int) : List Node :=
  if asked.length < 2 then []
  else
    let low := Text.lower asked
    let found := (symbolsOf v.nodes).filter fun n => Text.contains (Text.lower n.name) low
    let ranked :=
      (found.map fun n => (v.searchRank low n, n)).mergeSort fun a b => !rankBefore b.1 a.1
    leading limit (ranked.map (·.2))

def searchJson (v : View) (n : Node) : Json :=
  .obj [("id", .str n.id), ("name", .str n.name), ("type", .str n.kind.word),
    ("file", .str n.loc.file),
    ("lines", .arr [.int n.loc.first, .int n.loc.last]), ("language", .str n.language),
    ("degree", .int (v.degree n.id))]

/-- The symbols that a name asks for: those with exactly this name, or else those whose name
contains it. -/
def seeds (v : View) (name : String) : List Node :=
  let low := Text.lower name
  let symbols := symbolsOf v.nodes
  match symbols.filter fun n => Text.lower n.name == low with
  | [] => symbols.filter fun n => Text.contains (Text.lower n.name) low
  | exact => exact

def neighbours (v : View) (id : String) : List String :=
  let others := (v.links.filter (·.source == id)).map (·.target) ++
    (v.links.filter (·.target == id)).map fun e => if e.source == id then e.target else e.source
  others.filter fun o => (v.node? o).any fun n => !n.isComment

structure Walk where
  inner : List String := []
  outer : List String

def Walk.round (v : View) (w : Walk) : Walk :=
  let inner := w.inner ++ w.outer
  ⟨inner, (distinct (w.outer.flatMap v.neighbours)).filter fun id => !inner.contains id⟩

def Walk.rounds (v : View) : Nat → Walk → Walk
  | 0, w => w
  | n + 1, w => rounds v n (w.round v)

structure Neighbourhood where
  seeds : List String
  ids : List String
  links : List Edge

/-- The first of the links between the same two nodes. -/
def firstLinks (links : List Edge) : List Edge :=
  links.foldl (fun kept e =>
    if kept.any fun k => k.source == e.source && k.target == e.target then kept else kept ++ [e]) []

/-- What a walk from some symbols shows: the symbols themselves and, up to `limit` nodes in all,
what it reached besides, those with many links first. A link is shown if the walk followed it and
both its ends are shown. -/
def Walk.shown (order : SetOrder) (v : View) (seeds : List String) (limit : Int) (w : Walk) :
    Neighbourhood :=
  let others := (order.list (w.inner ++ w.outer)).filter fun id => !seeds.contains id
  let byDegree := others.mergeSort fun a b => v.degree b ≤ v.degree a
  let ids := order.list seeds ++ byDegree.take (limit - seeds.length).toNat
  let touched := order.list
    (firstLinks (v.links.filter fun e => w.inner.contains e.source || w.inner.contains e.target))
  ⟨seeds, ids, touched.filter fun e => ids.contains e.source && ids.contains e.target⟩

def neighbourhood (order : SetOrder) (v : View) (name : String) (hops limit : Int) :
    Except Failure Neighbourhood :=
  match distinct ((v.seeds name).map (·.id)) with
  | [] => .error (.unknownSymbol name)
  | seeds => .ok ((Walk.rounds v hops.toNat ⟨[], seeds⟩).shown order v seeds limit)

def hotspotScore (v : View) (id : String) : Float :=
  ((v.hotspots.reverse.find? (·.node.id == id)).map (·.score)).getD 0.0

def nodeJson (v : View) (isSeed : Bool) (n : Node) : Json :=
  let comments := v.comments n.name
  .obj [("id", .str n.id), ("name", .str n.name), ("type", .str n.kind.word),
    ("file", .str n.loc.file),
    ("lines", .arr [.int n.loc.first, .int n.loc.last]), ("language", .str n.language),
    ("summary", .str n.summary), ("degree", .int (v.degree n.id)),
    ("hotspot", .float (Decimal.roundTo 2 (v.hotspotScore n.id))), ("is_seed", .bool isSeed),
    ("comment_count", .int comments.length),
    ("comments",
      .arr (comments.map fun c => .obj [("line", .int c.loc.first), ("text", .str c.name)]))]

def neighbourhoodJson (v : View) (h : Neighbourhood) : Json :=
  .obj [("nodes",
    .arr (h.ids.filterMap fun id => (v.node? id).map (v.nodeJson (h.seeds.contains id)))),
    ("edges", .arr (h.links.map fun e =>
      .obj [("source", .str e.source), ("target", .str e.target),
        ("relation", .str e.relation.word)]))]

def hotspotJson (v : View) (e : Hotspot.Entry Float) (n : Node) : Json :=
  .obj [("id", .str n.id), ("name", .str n.name), ("type", .str n.kind.word),
    ("file", .str n.loc.file),
    ("score", .float (Decimal.roundTo 2 e.score)), ("caller_count", .int e.callers),
      ("churn_rate", .int e.churn),
    ("degree", .int (v.degree n.id)), ("comment_count", .int (v.comments n.name).length)]

def hotspotsJson (v : View) (top : Int) : Json :=
  .arr ((leading top v.hotspots).filterMap fun e =>
    ((v.node? e.node.id).filter fun n => !n.isComment).map (v.hotspotJson e))

inductive Request where
  | page
  | stats
  | search (asked : String) (limit : Int)
  | graph (name : String) (hops limit : Int)
  | hotspots (top : Int)

def answer (order : SetOrder) (v : View) (page : String) : Request → Except Failure Json
  | .page => .ok (.str page)
  | .stats => .ok v.stats
  | .search asked limit => .ok (.arr ((v.search asked limit).map v.searchJson))
  | .graph name hops limit => (v.neighbourhood order name hops limit).map v.neighbourhoodJson
  | .hotspots top => .ok (v.hotspotsJson top)

end View

end CodeAtlas
