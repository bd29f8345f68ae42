import CodeAtlas.Data.Leading
import CodeAtlas.Data.OrderedMap
import CodeAtlas.Graph.Lookup

/-!
# Hotspots

A hotspot is a symbol that much code depends on and that often changes. Its score is the product of
a scaled number of callers and a scaled number of changes. The ranking is generic in the numbers
that scores are made of; the program takes base-two logarithms in floating-point arithmetic.
-/

namespace CodeAtlas.Hotspot

structure Entry (R : Type) where
  node : Node
  callers : Nat
  churn : Int
  score : R
deriving Inhabited

/-- What restricts a ranking; empty texts restrict nothing. -/
structure Filters where
  kind : String := ""
  language : String := ""
  file : String := ""

def Filters.pass (f : Filters) (n : Node) : Bool :=
  passesExact f.kind n.kind.word && passesExact f.language n.language &&
    passesFilter f.file n.loc.file

def callersOf (edges : List Edge) (lowName : String) : List String :=
  distinct (((callEdgesOf edges).filter fun e =>
    let callee := Text.lower (calleeName e.context)
    !callee.isEmpty && callee == lowName).map (·.source))

/-- How often each identifier is called, for the nodes of a list. Nodes are grouped by name; an
identifier that occurs under several names has the count of the last group. -/
def callerCounts (nodes : List Node) (edges : List Edge) : OrderedMap String Nat :=
  let groups := OrderedMap.groupBy (fun (n : Node) => Text.lower n.name) nodes
  .ofList (groups.entries.flatMap fun (name, members) =>
    let count := (callersOf edges name).length
    members.map fun n => (n.id, count))

/-- How often a node changed: by file where that is known, otherwise by the node's own history. -/
def churnOf (fileChurn : Option (OrderedMap String Int)) (n : Node) : Int :=
  match fileChurn with
  | some churn => (churn.get? n.loc.file).getD 0
  | none =>
    match n.history with
    | some h => h.churnRate
    | none => 0

/-- The score of a symbol; one change is counted even where none is known. -/
def score {R : Type} [Mul R] (scale : Int → R) (callers : Nat) (churn : Int) : R :=
  scale callers * scale (max churn 1)

/-- Whether one entry may stand before another: by score, then by number of callers, both
descending. -/
def Entry.before {R : Type} [LT R] [DecidableLT R] (a b : Entry R) : Bool :=
  if b.score < a.score then true
  else if a.score < b.score then false
  else b.callers ≤ a.callers

def rank {R : Type} [Mul R] [LT R] [DecidableLT R] (scale : Int → R) (nodes : List Node)
    (edges : List Edge) (fileChurn : Option (OrderedMap String Int)) (filters : Filters)
    (top : Int) :
    List (Entry R) :=
  let candidates := nodes.filter filters.pass
  let counts := callerCounts candidates edges
  let entries := candidates.map fun n =>
    let callers := (counts.get? n.id).getD 0
    let churn := churnOf fileChurn n
    { node := n, callers := callers, churn := churn, score := score scale callers churn : Entry R }
  leading top (entries.mergeSort Entry.before)

def logScale (n : Int) : Float :=
  Float.log2 (Float.ofInt (1 + n))

def hotspots (nodes : List Node) (edges : List Edge) (fileChurn : Option (OrderedMap String Int))
    (filters : Filters) (top : Int) : List (Entry Float) :=
  rank logScale nodes edges fileChurn filters top

end CodeAtlas.Hotspot
