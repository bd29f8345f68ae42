import CodeAtlas.Change.Diff
import CodeAtlas.Data.Leading
import CodeAtlas.Graph.Reach

/-!
# The reach of a change

For every symbol that a diff names, the indexed nodes of that name and the nodes that call them,
directly or through others.
-/

namespace CodeAtlas.Change

inductive Impact where
  | indexed (node : Node) (callers : List Node)
  | unindexed (symbol : String)
deriving Inhabited

def Impact.callerCount : Impact → Nat
  | .indexed _ callers => callers.length
  | .unindexed _ => 0

def callersOfNode (nodes : List Node) (edges : List Edge) (depth : Int) (n : Node) : List Node :=
  callersWithin (·.name) nodes (callEdgesOf edges) depth.toNat [n.name] [n.id]

structure ImpactReading where
  seen : List String := []
  impacts : List Impact := []

/-- Looks at one indexed node, unless that was done before. -/
def ImpactReading.addNode (nodes : List Node) (edges : List Edge) (depth : Int) (r : ImpactReading)
    (n : Node) : ImpactReading :=
  if r.seen.contains n.id then r
  else
    { seen := r.seen ++ [n.id]
      impacts := r.impacts ++ [.indexed n (callersOfNode nodes edges depth n)] }

def ImpactReading.addSymbol (nodes : List Node) (edges : List Edge) (depth : Int)
    (r : ImpactReading) (symbol : String) : ImpactReading :=
  match nodesNamed nodes symbol with
  | [] => { r with impacts := r.impacts ++ [.unindexed symbol] }
  | matching => matching.foldl (ImpactReading.addNode nodes edges depth) r

def impactOf (nodes : List Node) (edges : List Edge) (depth : Int) (symbols : List String) :
    List Impact :=
  let r := symbols.foldl (ImpactReading.addSymbol nodes edges depth) {}
  r.impacts.mergeSort fun a b => b.callerCount ≤ a.callerCount

structure Report where
  files : List FileChange
  symbols : List String
  impacts : List Impact

def usualDepth : Int := 2

def analyze (diff : String) (nodes : List Node) (edges : List Edge) (depth : Int) : Report :=
  let files := filesOf diff
  let symbols := distinct (files.flatMap (·.symbols))
  ⟨files, symbols, impactOf nodes edges depth symbols⟩

end CodeAtlas.Change
