import CodeAtlas.Data.Leading
import CodeAtlas.Data.OrderedMap
import CodeAtlas.Failure
import CodeAtlas.Graph.Codec

/-!
# A vector store

The store runs outside of the library. It holds collections of points, each with a vector and named
values. How texts get their vectors, how points are ranked by a vector and which calls fail is left
to the store. Where no ranking is asked for, points are looked at in the order of their numbers.
-/

namespace CodeAtlas.Vector

abbrev Payload := List (String × Json)

structure Point where
  id : Int
  vector : Json
  payload : Payload
deriving Inhabited

structure Hit where
  point : Point
  score : Json
deriving Inhabited

inductive Call where
  | create
  | upsert
  | count
  | delete
  | describe
  | scroll
  | query
deriving DecidableEq, Repr

def Call.word : Call → String
  | .create => "create_collection"
  | .upsert => "upsert"
  | .count => "count"
  | .delete => "delete"
  | .describe => "get_collection"
  | .scroll => "scroll"
  | .query => "query_points"

structure Store where
  collections : OrderedMap String (List Point) := {}
  vectorOf : String → List Float
  /-- Points in the order in which they fit a vector, with scores. -/
  rank : List Float → List Point → List Hit
  /-- Whether the `n`-th call of a kind fails. -/
  fails : Call → Nat → Bool := fun _ _ => false
  made : List Call := []
deriving Inhabited

abbrev StoreM (α : Type) : Type := ExceptT Failure (StateM Store) α

namespace Store

def holds (s : Store) (name : String) : Bool :=
  s.collections.contains name

def points (s : Store) (name : String) : List Point :=
  ((s.collections.get? name).getD []).mergeSort fun p q => p.id ≤ q.id

def putPoint (points : List Point) (p : Point) : List Point :=
  points.filter (·.id != p.id) ++ [p]

def change (s : Store) (name : String) (f : List Point → List Point) : Store :=
  { s with collections := s.collections.alter name [] f }

end Store

/-- A condition on points: a named value is a text, or a list with this text in it. -/
structure Condition where
  key : String
  value : String

def Condition.holds (c : Condition) (payload : Payload) : Bool :=
  match payload.lookup c.key with
  | some (.str s) => s == c.value
  | some (.arr items) => items.contains (.str c.value)
  | _ => false

def meeting (conditions : List Condition) (points : List Point) : List Point :=
  points.filter fun p => conditions.all (·.holds p.payload)

def call (c : Call) : StoreM Unit := do
  modify fun s => { s with made := s.made ++ [c] }
  let s ← get
  if s.fails c (s.made.count c) then throw (.storeFailed c.word)

def ensure (name : String) : StoreM Unit := do
  if !(← get).holds name then
    call .create
    modify (·.change name id)

def drop (name : String) : StoreM Unit :=
  modify fun s => { s with collections := s.collections.erase name }

def upsert (name : String) (points : List Point) : StoreM Unit := do
  call .upsert
  modify (·.change name fun old => points.foldl Store.putPoint old)

def batchSize : Nat := 500

def upsertAll (size : Nat) (name : String) (points : List Point) : StoreM Unit :=
  (pieces size points).forM (upsert name)

def embed (size : Nat) (encode : List String → List (List Float)) (texts : List String) :
    List (List Float) :=
  (pieces size texts).flatMap encode

def count (name : String) (conditions : List Condition) : StoreM Nat := do
  call .count
  return (meeting conditions ((← get).points name)).length

def deleteMeeting (name : String) (conditions : List Condition) : StoreM Unit := do
  call .delete
  modify fun s =>
    if s.holds name then
      s.change name (·.filter fun p => !conditions.all (·.holds p.payload))
    else s

def deletePoint (name : String) (id : Int) : StoreM Unit := do
  call .delete
  modify fun s => if s.holds name then s.change name (·.filter (·.id != id)) else s

def size (name : String) : StoreM Nat := do
  if !(← get).holds name then return 0
  call .describe
  return ((← get).points name).length

def scroll (name : String) (conditions : List Condition) (limit : Int) : StoreM (List Point) := do
  call .scroll
  return leading limit (meeting conditions ((← get).points name))

def query (name : String) (asked : List Float) (conditions : List Condition) (limit : Int) :
    StoreM (List Hit) := do
  call .query
  let s ← get
  return leading limit (s.rank asked (meeting conditions (s.points name)))

def Hit.shown (h : Hit) : Payload :=
  h.point.payload.foldl (fun fields (k, v) => Json.put k v fields) [("score", h.score)]

end CodeAtlas.Vector
