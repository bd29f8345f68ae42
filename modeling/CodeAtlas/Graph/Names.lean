import CodeAtlas.Graph.Node
import CodeAtlas.Text.Case
import CodeAtlas.Text.Split

/-!
# Names of symbols and of callees

The bare name of a symbol is the last segment of its full name. The callee of a recorded call is
read off the text of the call: the last word that stands directly before an opening parenthesis or,
if there is none, the last piece of the text.
-/

namespace CodeAtlas

/-- The part of a name after its last separator, of which `segment`, reversed, has been read. `::`
and the backslash separate, and so does the dot when `dots` is set. -/
def lastSegmentFrom (dots : Bool) (segment : List Char) : List Char → List Char
  | [] => segment.reverse
  | ':' :: ':' :: cs => lastSegmentFrom dots [] cs
  | c :: cs =>
    if c == '\\' || (dots && c == '.') then lastSegmentFrom dots [] cs
    else lastSegmentFrom dots (c :: segment) cs

def lastSegment (dots : Bool) (name : String) : String :=
  String.ofList (lastSegmentFrom dots [] name.toList)

def bareName (name : String) : String :=
  lastSegment true name

/-- What has been read of a call's text: the word read last, reversed, if only blanks came after it;
whether blanks came; and the last word found before an opening parenthesis. -/
structure CallScan where
  word : List Char := []
  gap : Bool := false
  found : Option (List Char) := none

def CallScan.step (s : CallScan) (c : Char) : CallScan :=
  if Text.isWord c then
    if s.gap then { s with word := [c], gap := false } else { s with word := c :: s.word }
  else if c == '(' then
    { word := [], gap := false, found := if s.word.isEmpty then s.found else some s.word.reverse }
  else if Text.isBlank c && !s.word.isEmpty then { s with gap := true }
  else { s with word := [], gap := false }

def lastCalled? (cs : List Char) : Option (List Char) :=
  (cs.foldl CallScan.step {}).found

def lastPiece (isCut : Char → Bool) (cs : List Char) : List Char :=
  (cs.reverse.takeWhile fun c => !isCut c).reverse

/-- The callee that the text of a call names; `isCut` tells where a text without parentheses is
cut. -/
def calleeBy (isCut : Char → Bool) (context : String) : String :=
  let cs := context.toList
  String.ofList ((lastCalled? cs).getD (Text.trimList Text.isBlank (lastPiece isCut cs)))

def calleeName (context : String) : String :=
  calleeBy (fun c => c == ':' || c == '.' || Text.isBlank c) context

end CodeAtlas
