import CodeAtlas.Extract.Parameters

/-!
# Comments

Every comment of a file becomes a node, unless hardly any text is left when its markers are taken
off. It is attached to the innermost symbol around it or, failing that, to the symbol that ends
shortly before it.
-/

namespace CodeAtlas.Extract

open Source (Tree)

def firstMin? {α : Type} (measure : α → Int) : List α → Option α
  | [] => none
  | a :: rest =>
    match firstMin? measure rest with
    | none => some a
    | some b => if measure b < measure a then some b else some a

/-- How many lines may lie between a symbol and a comment after it that is still attached to it. -/
def attachDistance : Int := 5

def enclosingSymbol (line : Int) (symbols : List Node) : Option Node :=
  let around := symbols.filter fun n => n.loc.first ≤ line && line ≤ n.loc.last
  match firstMin? (fun n => n.loc.last - n.loc.first) around with
  | some n => some n
  | none =>
    let before := symbols.filter fun n => n.loc.last < line
    (firstMin? (fun n => -n.loc.last) before).filter fun n =>
      line - n.loc.last ≤ attachDistance

/-- The sets of marker characters that are taken off the front of a comment, one after the other. -/
def commentMarkers : List (List Char) :=
  [['/'], ['/'], ['#'], ['/', '*'], ['*', '/'], ['*']]

def commentText (raw : String) : String :=
  commentMarkers.foldl (fun text marks => Text.trim (Text.trimLeftOf marks text)) (Text.trim raw)

def shortestComment : Nat := 3

def longestComment : Nat := 500

def commentNode (s : Site) (symbols : List Node) (t : Tree) : Reads (Option Node) := do
  let text := commentText (← s.parsed.text t)
  if text.length < shortestComment then
    return none
  else
    let line := s.parsed.firstLine t
    let parent := match enclosingSymbol line symbols with
      | some n => n.name
      | none => ""
    return some
      { id := s.idOf ("comment:" ++ toString line), kind := .comment
        name := Text.cut longestComment text, loc := s.locate t, language := s.language
        traits := { parentSymbol := parent } }

/-- Takes trees off a stack and keeps those of the given kinds. The children of a tree take its
place, the first of them on top. -/
def sweep (kinds : List String) (found : List Tree) : List Tree → List Tree
  | [] => found
  | t :: stack =>
    if kinds.contains t.kind then
      sweep kinds (found ++ [t]) (t.children ++ stack)
    else
      sweep kinds found (t.children ++ stack)
-- every round takes one tree node off for good
termination_by stack => (Tree.preorderAll stack).length
decreasing_by
  all_goals
    rw [Tree.preorderAll_cons]
    exact Nat.lt_succ_self _

def commentTrees (kinds : List String) (root : Tree) : List Tree :=
  sweep kinds [] [root]

/-- What was found, followed by what is to be found on the stack, stays the same in every round. -/
theorem sweep_eq (kinds : List String) (found stack : List Tree) :
    sweep kinds found stack = found ++ (Tree.preorderAll stack).filter fun t => kinds.contains
      t.kind := by
  fun_induction sweep kinds found stack with
  | case1 found => rw [Tree.preorderAll, List.filter_nil, List.append_nil]
  | case2 found t stack hkind ih =>
    rw [ih, Tree.preorderAll_cons, List.filter_cons, if_pos hkind, List.append_assoc,
      List.singleton_append]
  | case3 found t stack hkind ih => rw [ih, Tree.preorderAll_cons, List.filter_cons, if_neg hkind]

theorem commentTrees_eq (kinds : List String) (root : Tree) :
    commentTrees kinds root = root.preorder.filter fun t => kinds.contains t.kind := by
  rw [commentTrees, sweep_eq, Tree.preorderAll, Tree.preorderAll, List.nil_append, List.append_nil]

theorem mem_commentTrees {kinds : List String} {root t : Tree} :
    t ∈ commentTrees kinds root ↔ t ∈ root.preorder ∧ t.kind ∈ kinds := by
  rw [commentTrees_eq, List.mem_filter, List.contains_iff_mem]

def comments (s : Site) (kinds : List String) (symbols : List Node) : Reads (List Node) :=
  collect (commentNode s symbols) (commentTrees kinds s.parsed.root)

def withComments (s : Site) (kinds : List String) (e : Emission) : Reads Emission := do
  let found ← comments s kinds e.nodes
  return e ++ { nodes := found }

end CodeAtlas.Extract
