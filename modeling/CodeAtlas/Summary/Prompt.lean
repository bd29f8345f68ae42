import CodeAtlas.Graph.Node
import CodeAtlas.Text.Split

/-!
# Asking for summaries

A language model is asked for one sentence per symbol, and for nothing but a list of these
sentences.
-/

namespace CodeAtlas.Summary

structure Item where
  node : Node
  source : String

def signature (n : Node) : String :=
  let arguments := if n.traits.parameters.isEmpty then ""
    else "(" ++ Text.join ", " n.traits.parameters ++ ")"
  let result := match n.traits.returnType with
    | some t => if t.isEmpty then "" else " -> " ++ t
    | none => ""
  n.name ++ arguments ++ result

def Item.text (number : Nat) (i : Item) : String :=
  let language := if i.node.language.isEmpty then "code" else i.node.language
  let header :=
    toString number ++ ". [" ++ language ++ " " ++ i.node.kind.word ++ "] " ++ signature i.node
  if i.source.isEmpty then header
  else header ++ "\n```" ++ language ++ "\n" ++ i.source ++ "\n```"

def prompt (items : List Item) : String :=
  "For each symbol below write one sentence describing what it does.\nReturn a JSON array with exactly " ++
    toString items.length ++ " strings, one per symbol.\n\n" ++
    Text.join "\n\n" (items.mapIdx fun i item => item.text (i + 1))

end CodeAtlas.Summary
