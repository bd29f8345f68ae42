import CodeAtlas.Digest.Md5
import CodeAtlas.Project.Config
import CodeAtlas.Vector.Diversity
import CodeAtlas.Vector.Store

/-!
# The collections of a project

A project has three collections in the vector store: its symbols, its commits and its working
memory. Their names start with a text of the settings, or, where that is the usual one, with a text
made from the name of the project, so that projects do not share collections.
-/

namespace CodeAtlas.Vector

inductive Collection where
  | symbols
  | commits
  | memory
deriving DecidableEq, Repr

def Collection.all : List Collection :=
  [.symbols, .commits, .memory]

def Collection.word : Collection → String
  | .symbols => "code_symbols"
  | .commits => "commits"
  | .memory => "brain"

structure Catalog where
  start : String
deriving Inhabited, Repr

/-- A name in small letters and digits, anything else shrunk to single underscores. -/
def slug (name : String) : String :=
  let isPlain (c : Char) : Bool := ('a' ≤ c && c ≤ 'z') || ('0' ≤ c && c ≤ '9')
  let runs := Text.splitBy (fun c => !isPlain c) (Text.lower name).toList
  Text.join "_" ((runs.filter fun r => !r.isEmpty).map String.ofList)

namespace Catalog

def ofSettings (settings : StoreSettings) (project : String) : Catalog :=
  if settings.collectionPrefix == "hammy" && !project.isEmpty then ⟨"hammy_" ++ slug project⟩
  else ⟨settings.collectionPrefix⟩

def name (c : Catalog) (k : Collection) : String :=
  c.start ++ "_" ++ k.word

def ensureAll (c : Catalog) : StoreM Unit :=
  Collection.all.forM fun k => ensure (c.name k)

def dropAll (c : Catalog) : StoreM Unit :=
  Collection.all.forM fun k => drop (c.name k)

def sizes (c : Catalog) : StoreM (List (Collection × Nat)) :=
  Collection.all.mapM fun k => return (k, ← size (c.name k))

end Catalog

def pointId (text : String) : Int :=
  Digest.Md5.number (Text.Utf8.encode text) % Nat.pow 2 53

def vectorJson (v : List Float) : Json :=
  .arr (v.map .float)

def symbolText (n : Node) : String :=
  let summary := if n.summary.isEmpty then "" else " - " ++ n.summary
  let parameters := if n.traits.parameters.isEmpty then ""
    else " params: " ++ Text.join ", " n.traits.parameters
  let result := match n.traits.returnType with
    | some t => if t.isEmpty then "" else " returns: " ++ t
    | none => ""
  n.kind.word ++ " " ++ n.name ++ summary ++ parameters ++ result

def symbolPayload (n : Node) : Payload :=
  [("node_id", .str n.id), ("type", .str n.kind.word), ("name", .str n.name),
    ("file", .str n.loc.file),
    ("lines", .arr [.int n.loc.first, .int n.loc.last]), ("language", .str n.language),
    ("summary", .str n.summary), ("visibility", .ofText? n.traits.visibility),
    ("is_async", .bool n.traits.isAsync)]

def symbolPoint (n : Node) (vector : List Float) : Point :=
  ⟨pointId n.id, vectorJson vector, symbolPayload n⟩

namespace Catalog

/-- Keeps symbols, `size` at a time, with the vectors that a model gives to their texts; comments
are left out. Says how many were kept. -/
def keepBatches (c : Catalog) (size : Nat) (encode : List String → List (List Float))
    (nodes : List Node) :
    StoreM Nat := do
  let symbols := nodes.filter fun n => !n.isComment
  let points := List.zipWith symbolPoint symbols (embed size encode (symbols.map symbolText))
  upsertAll size (c.name .symbols) points
  return points.length

def keepSymbols (c : Catalog) (nodes : List Node) : StoreM Nat := do
  let s ← get
  c.keepBatches batchSize (·.map s.vectorOf) nodes

def forgetFile (c : Catalog) (file : String) : StoreM Nat := do
  let conditions := [⟨"file", file⟩]
  let n ← count (c.name .symbols) conditions
  if 0 < n then deleteMeeting (c.name .symbols) conditions
  return n

/-- The conditions on symbols of a language and a kind; an empty text stands for any. -/
def symbolConditions (language kind : String) : List Condition :=
  [⟨"language", language⟩, ⟨"type", kind⟩].filter fun c => !c.value.isEmpty

def searchSymbols (c : Catalog) (question : String) (limit : Int) (language kind : String) :
    StoreM (List Payload) := do
  let asked := (← get).vectorOf question
  return (← query (c.name .symbols) asked (symbolConditions language kind) limit).map Hit.shown

structure DiverseSearch where
  limit : Int := 10
  pool : Option Int := none
  weight : Float := 0.6
  language : String := ""
  kind : String := ""

/-- The numbers in a vector, which may be the first of several named ones. -/
def numbersOf : Json → List Float
  | .arr items => items.map fun v => v.float?.getD 0.0
  | .obj ((_, .arr items) :: _) => items.map fun v => v.float?.getD 0.0
  | _ => []

def fetchPool (c : Catalog) (question : String) (d : DiverseSearch) : StoreM (List Hit) := do
  let asked := (← get).vectorOf question
  query (c.name .symbols) asked (symbolConditions d.language d.kind)
    (d.pool.getD (max (d.limit * 4) 40))

def candidate (h : Hit) : Hit × List Float32 :=
  (h, direction (numbersOf h.point.vector))

/-- What is chosen from a pool of hits with their vectors, in the order of its choice. -/
def diverse {V R : Type} [Add V] [Mul V] [OfNat V 0] [OfNat R 1] [Mul R] [Sub R] [LT R]
    [DecidableLT R]
    (widen : V → R) (asked : List V) (weight : R) (limit : Int) (pool : List (Hit × List V)) :
    List Payload :=
  (choose (weighing widen asked weight) limit.toNat [] pool).map fun x => x.1.shown

def searchDiverse (c : Catalog) (question : String) (d : DiverseSearch) :
    StoreM (List Payload) := do
  let asked := (← get).vectorOf question
  let hits ← c.fetchPool question d
  return diverse Float32.toFloat (direction asked) d.weight d.limit (hits.map candidate)

/-- What is kept about a commit. Every field but the list of files must be there. -/
def commitPayload (commit : Json) : Except Failure Payload := do
  let fields ← ["revision", "author", "date", "message"].mapM fun key =>
    match commit.get? key with
    | some v => .ok (key, v)
    | none => .error (.missingField key)
  return fields ++ [("files_changed", (commit.get? "files_changed").getD (.arr []))]

/-- Keeps commits, numbered from zero. Says how many were kept. -/
def keepCommits (c : Catalog) (commits : List Json) : StoreM Nat := do
  let payloads ← commits.mapM (commitPayload ·)
  let s ← get
  let messages := payloads.map fun p => ((p.lookup "message").bind Json.text?).getD ""
  let points :=
    (payloads.zip (embed batchSize (·.map s.vectorOf) messages)).mapIdx fun i (p, vector) =>
    (⟨i, vectorJson vector, p⟩ : Point)
  upsertAll batchSize (c.name .commits) points
  return points.length

def searchCommits (c : Catalog) (question : String) (limit : Int) : StoreM (List Payload) := do
  let asked := (← get).vectorOf question
  return (← query (c.name .commits) asked [] limit).map Hit.shown

end Catalog

end CodeAtlas.Vector
