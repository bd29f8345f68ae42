import CodeAtlas.Graph.Lookup

/-!
# Callers at a distance

The text of a call mentions the callee. A node calls a word when the text of one of its calls holds
that word, case ignored. Callers of callers are found round by round; a round looks for the words
that stand for the nodes of the round before.
-/

namespace CodeAtlas

def callerThrough? (nodes : List Node) (words : List String) (call : Edge) : Option Node :=
  if words.any fun w => Text.containsWord w call.context then nodeWithId? nodes call.source
    else none

def newCallers (nodes : List Node) (words known : List String) (calls : List Edge) : List Node :=
  calls.foldl (fun found call =>
    match callerThrough? nodes words call with
    | some n => if known.contains n.id || found.any (·.id == n.id) then found else found ++ [n]
    | none => found) []

/-- The callers that are reached in at most `rounds` rounds, nearest first. `wordFor` gives the word
by which calls mention a node. -/
def callersWithin (wordFor : Node → String) (nodes : List Node) (calls : List Edge) :
    (rounds : Nat) → (words known : List String) → List Node
  | 0, _, _ => []
  | n + 1, words, known =>
    match newCallers nodes words known calls with
    | [] => []
    | found =>
      found ++ callersWithin wordFor nodes calls n (found.map wordFor) (known ++ found.map (·.id))

end CodeAtlas
