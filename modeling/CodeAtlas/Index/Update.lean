import CodeAtlas.Index.Build

/-!
# Keeping an index up to date

When files change, what the index knows about them is taken out, and what they define now is put in.
Each file is remembered with the identifiers of the nodes that it gave.
-/

namespace CodeAtlas.Index

structure Tracked where
  graph : Graph := {}
  owners : OrderedMap String (List String) := {}
deriving Inhabited

def addOwners (owners : OrderedMap String (List String)) (nodes : List Node) :
    OrderedMap String (List String) :=
  nodes.foldl (fun m n => m.alter n.loc.file [] (· ++ [n.id])) owners

def Tracked.ofGraph (g : Graph) : Tracked :=
  ⟨g, addOwners {} g.nodes⟩

def Tracked.idsOf (t : Tracked) (files : List String) : List String :=
  files.flatMap fun f => (t.owners.get? f).getD []

def Graph.without (g : Graph) (ids : List String) : Graph :=
  ⟨g.nodes.filter fun n => !ids.contains n.id,
    g.edges.filter fun e => !ids.contains e.source && !ids.contains e.target⟩

def Tracked.drop (t : Tracked) (files : List String) : Tracked :=
  ⟨t.graph.without (t.idsOf files), files.foldl OrderedMap.erase t.owners⟩

def Tracked.add (t : Tracked) (g : Graph) : Tracked :=
  ⟨⟨t.graph.nodes ++ g.nodes, t.graph.edges ++ g.edges⟩, addOwners t.owners g.nodes⟩

structure Update where
  deleted : Bool
  added : Nat
  removed : Nat
  errors : Nat
deriving Repr, DecidableEq

def Update.word (u : Update) : String :=
  if u.deleted then "deleted" else "changed"

abbrev UpdateM (α : Type) : Type := ExceptT Failure (StateM (Tracked × Host)) α

def tryOnHost {α : Type} (op : HostM α) : UpdateM Unit :=
  modify fun (t, h) => (t, (op.run.run h).2)

def fileBelow (root p : Path) : Except Failure String :=
  match p.relativeTo? root with
  | some r => .ok r.toText
  | none => .error (.outside p.toText root.toText)

/-- The names of files below a root, as far as they can all be looked at. -/
def filesBelow (root : Path) (files : Files) (paths : List Path) : Except Failure (List String) :=
  paths.mapM fun p => do
    let file ← fileBelow root p
    files.look p
    return file

def forgetFiles (catalog? : Option Vector.Catalog) (files : List String) : UpdateM Unit :=
  match catalog? with
  | some c => (distinct files).forM fun f => tryOnHost (Host.onVectors (c.forgetFile f))
  | none => pure ()

def keepNodes (catalog? : Option Vector.Catalog) (nodes : List Node) : UpdateM Unit :=
  match catalog? with
  | some c => if nodes.isEmpty then pure () else tryOnHost (Host.onVectors (c.keepSymbols nodes))
  | none => pure ()

def update (root : Path) (config : Config) (catalog? : Option Vector.Catalog) (paths : List Path) :
    UpdateM Update := do
  let (t, h) ← get
  let files ← filesBelow root h.files paths
  let present := paths.filter h.files.holds
  let removed := (t.graph.nodes.filter fun n => (t.idsOf files).contains n.id).length
  set (t.drop files, h)
  forgetFiles catalog? files
  let (g, errors) ← readFiles config h root present
  modify fun (t, h) => (t.add g, h)
  keepNodes catalog? g.nodes
  return ⟨present.isEmpty && !paths.isEmpty, g.nodes.length, removed, errors.length⟩

end CodeAtlas.Index
