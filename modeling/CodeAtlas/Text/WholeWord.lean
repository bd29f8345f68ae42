import CodeAtlas.Text.Case

/-!
# Whole words with case ignored

`containsWord name text` decides whether `name` stands in `text` between two word edges. A word edge
lies between a word character and a character that is none (or an end of the text), so an empty name
is found in every text that has a word character.
-/

namespace CodeAtlas.Text

/-- Whether a word edge lies between two neighbours; `none` stands for an end of the text. -/
def wordEdge (before after : Option Char) : Bool :=
  before.any isWord != after.any isWord

/-- Reads `name` off the front of a text, case ignored. Gives the character read last (`before` when
`name` is empty) and the rest. -/
def readName : (name : List Char) → (before : Option Char) → List Char →
    Option (Option Char × List Char)
  | [], before, text => some (before, text)
  | _ :: _, _, [] => none
  | n :: ns, _, c :: cs => if sameLetter n c then readName ns (some c) cs else none

def wordHere (name : List Char) (before : Option Char) (text : List Char) : Bool :=
  wordEdge before text.head? &&
    match readName name before text with
    | some (last, rest) => wordEdge last rest.head?
    | none => false

def wordAfter (name : List Char) (before : Option Char) : List Char → Bool
  | [] => wordHere name before []
  | c :: cs => wordHere name before (c :: cs) || wordAfter name (some c) cs

def containsWord (name text : String) : Bool :=
  wordAfter name.toList none text.toList

end CodeAtlas.Text
