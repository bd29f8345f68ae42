import CodeAtlas.Text.Classes

/-!
# Heads of definitions

A line of code defines a symbol when it starts, after blanks, with a keyword, with modifiers before
it, and a name of at least two characters. Readers take a leading part off a text and give the rest,
or refuse.
-/

namespace CodeAtlas.Change

open Text (isBlank isWord)

def gap? (cs : List Char) : Option (List Char) :=
  if cs.head?.any isBlank then some (cs.dropWhile isBlank) else none

def exactly? (text : String) (cs : List Char) : Option (List Char) :=
  if text.toList.isPrefixOf cs then some (cs.drop text.length) else none

def keyword? (word : String) (cs : List Char) : Option (List Char) :=
  (exactly? word cs).bind gap?

def optionally (word : String) (cs : List Char) : List Char :=
  (keyword? word cs).getD cs

def anyKeyword? (words : List String) (cs : List Char) : Option (List Char) :=
  words.findSome? fun w => keyword? w cs

def keywordRests (words : List String) : (steps : Nat) → List Char → List (List Char)
  | 0, _ => []
  | n + 1, cs =>
    match anyKeyword? words cs with
    | some rest => rest :: keywordRests words n rest
    | none => []

def afterKeywords (words : List String) (cs : List Char) : List Char :=
  (keywordRests words cs.length cs).getLast?.getD cs

def isNameStart (c : Char) : Bool :=
  c.isAlpha || c == '_'

def name? (cs : List Char) : Option (String × List Char) :=
  match cs with
  | c :: rest =>
    let more := rest.takeWhile isWord
    if isNameStart c && !more.isEmpty then some (String.ofList (c :: more), rest.dropWhile isWord)
    else none
  | [] => none

def optionalReceiver (cs : List Char) : List Char :=
  match cs with
  | '(' :: rest =>
    match rest.takeWhile (· != ')'), rest.dropWhile (· != ')') with
    | _ :: _, _ :: after => (gap? after).getD cs
    | _, _ => cs
  | _ => cs

def defName? (cs : List Char) : Option String := do
  let rest ← keyword? "def" (optionally "async" cs)
  return (← name? rest).1

def modifiedFunctionName? (cs : List Char) : Option String := do
  let rest ← keyword? "function"
    (afterKeywords ["public", "private", "protected", "static", "abstract", "final"] cs)
  return (← name? rest).1

def exportedFunctionName? (cs : List Char) : Option String := do
  let rest ← keyword? "function" (optionally "async" (optionally "export" cs))
  return (← name? rest).1

def assignedFunctionName? (cs : List Char) : Option String := do
  let rest ← anyKeyword? ["const", "let", "var"] (optionally "export" cs)
  let (name, rest) ← name? rest
  let rest ← exactly? "=" (rest.dropWhile isBlank)
  let value := optionally "async" (rest.dropWhile isBlank)
  if (exactly? "function" value).isSome || (exactly? "(" value).isSome then return name
  none

def funcName? (cs : List Char) : Option String := do
  let rest ← keyword? "func" cs
  return (← name? (optionalReceiver rest)).1

def className? (cs : List Char) : Option String := do
  let rest ← keyword? "class" (optionally "abstract" cs)
  return (← name? rest).1

/-- The name of a method that at least one modifier introduces and parameters follow. The last
modifiers are themselves read as a name when nothing else is left to be one. -/
def modifiedMethodName? (cs : List Char) : Option String :=
  let rests := keywordRests ["public", "private", "protected", "override", "static", "abstract",
    "async", "readonly"] cs.length cs
  rests.reverse.findSome? fun rest => do
    let (name, after) ← name? rest
    let next ← (after.dropWhile isBlank).head?
    if next == '(' || next == '<' then return name
    none

def definedName? (line : String) : Option String :=
  let cs := line.toList.dropWhile isBlank
  [defName?, modifiedFunctionName?, exportedFunctionName?, assignedFunctionName?, funcName?,
    className?, modifiedMethodName?].findSome? fun head => head cs

end CodeAtlas.Change
