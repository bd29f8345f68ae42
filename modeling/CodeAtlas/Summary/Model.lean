import CodeAtlas.Failure

/-!
# Asking a language model

The model runs outside of the library: it is a list of the replies still to come and of the requests
that were made. When no reply is left, the model answers with an empty list.
-/

namespace CodeAtlas.Summary

inductive Reply where
  | text (content : String)
  | nothing
  | failed (reason : String)
deriving Repr, Inhabited

structure Request where
  model : String
  key : Option String
  address : Option String
  prompt : String
deriving Repr, Inhabited

def mostTokens : Nat := 512

structure Model where
  replies : List Reply := []
  requests : List Request := []
deriving Inhabited

def Model.ask (m : Model) (r : Request) : Except Failure String × Model :=
  let requests := m.requests ++ [r]
  match m.replies with
  | [] => (.ok "[]", ⟨[], requests⟩)
  | .text content :: rest => (.ok content, ⟨rest, requests⟩)
  | .nothing :: rest => (.ok "", ⟨rest, requests⟩)
  | .failed reason :: rest => (.error (.modelFailed reason), ⟨rest, requests⟩)

end CodeAtlas.Summary
