import CodeAtlas.Data.Leading
import CodeAtlas.Ignore.Glob
import CodeAtlas.Text.Split
import CodeAtlas.Text.Trim

/-!
# Ignore patterns

A pattern is a path of globs in which a double star stands for any number of segments. Where its
last segment is a glob it also matches everything below. A pattern with a slash before its end is
anchored at the root, any other is looked for at every depth. Of all patterns that match a path, the
last one decides.
-/

namespace CodeAtlas.Ignore

inductive Item where
  | glob (t : Token)
  /-- One or more characters other than slashes. -/
  | segment
  | slash
  /-- Nothing, or any non-empty text and a slash. -/
  | above
  /-- Nothing, or a slash and any non-empty text. -/
  | between
  /-- A slash and any text. -/
  | below
  /-- Nothing, or a slash and any text. -/
  | belowOrHere
  /-- Any non-empty text, a slash and any text. -/
  | nested
deriving DecidableEq, Repr

/-- A character that stands for itself where any text is allowed. -/
def isPlain (c : Char) : Bool :=
  c != '\n'

def afterRun (p : Char → Bool) : List Char → List (List Char)
  | [] => [[]]
  | c :: cs => if p c then (c :: cs) :: afterRun p cs else [c :: cs]

def afterSome (p : Char → Bool) : List Char → List (List Char)
  | [] => []
  | c :: cs => if p c then afterRun p cs else []

def afterSlash : List Char → List (List Char)
  | '/' :: cs => [cs]
  | _ => []

def Token.rests (t : Token) (cs : List Char) : List (List Char) :=
  match t with
  | .run => afterRun (· != '/') cs
  | .exact d =>
    match cs with
    | c :: rest => if c == d then [rest] else []
    | [] => []
  | .one =>
    match cs with
    | c :: rest => if c != '/' then [rest] else []
    | [] => []
  | .set negated ranges =>
    match cs with
    | c :: rest =>
      if (ranges.any fun (lo, hi) => lo ≤ c && c ≤ hi) != negated then [rest] else []
    | [] => []

def Item.rests (i : Item) (cs : List Char) : List (List Char) :=
  match i with
  | .glob t => t.rests cs
  | .segment => afterSome (· != '/') cs
  | .slash => afterSlash cs
  | .above => cs :: (afterSome isPlain cs).flatMap afterSlash
  | .between => cs :: (afterSlash cs).flatMap (afterSome isPlain)
  | .below => (afterSlash cs).flatMap (afterRun isPlain)
  | .belowOrHere => cs :: (afterSlash cs).flatMap (afterRun isPlain)
  | .nested => ((afterSome isPlain cs).flatMap afterSlash).flatMap (afterRun isPlain)

/-- Whether a text is at its end; a line feed there does not count. -/
def atEnd (cs : List Char) : Bool :=
  cs.isEmpty || cs == ['\n']

def matchItems : List Item → List Char → Bool
  | [], cs => atEnd cs
  | i :: items, cs => (i.rests cs).any (matchItems items)

/-- A pattern: its parts, and whether it takes back what earlier patterns exclude. -/
structure Pattern where
  restores : Bool
  items : List Item
deriving Repr

def Pattern.hits (p : Pattern) (path : String) : Bool :=
  matchItems p.items path.toList

def collapseStars : List String → List String
  | a :: b :: rest => if a == "**" && b == "**" then collapseStars (b :: rest) else a ::
      collapseStars (b :: rest)
  | segments => segments

def segmentItems (s : String) : Except Flaw (List Item) :=
  if s == "*" then .ok [.segment] else (tokens s).map fun ts => ts.map .glob

/-- The parts of the segments after the first. `slash` tells whether a slash stands before a
glob. -/
def laterItems (slash : Bool) : List String → Except Flaw (List Item)
  | [] => .ok []
  | [s] =>
    if s == "**" then .ok [.below]
    else do
      let items ← segmentItems s
      return (if slash then [.slash] else []) ++ items ++ [.belowOrHere]
  | s :: rest => do
    if s == "**" then return .between :: (← laterItems true rest)
    let items ← segmentItems s
    return (if slash then [.slash] else []) ++ items ++ (← laterItems true rest)

def itemsOf : List String → Except Flaw (List Item)
  | [] => .error .invalid
  | [s] =>
    if s == "**" then .ok [.segment, .belowOrHere]
    else do return (← segmentItems s) ++ [.belowOrHere]
  | s :: rest => do
    if s == "**" then return .above :: (← laterItems false rest)
    return (← segmentItems s) ++ (← laterItems true rest)

/-- Segments with a double star put before a pattern that is not anchored, and for an empty last
segment. -/
def normalize (segments : List String) : List String :=
  let anchored := match segments with
    | "" :: rest => rest
    | [s] => if s == "**" then [s] else ["**", s]
    | [s, ""] => if s == "**" then [s, ""] else ["**", s, ""]
    | other => other
  if anchored.getLast? == some "" && 1 < anchored.length then anchored.dropLast ++ ["**"]
    else anchored

/-- Whether a line is trimmed on the left only, because a blank at its end is escaped. -/
def keepsLastBlank (line : String) : Bool :=
  Text.endsWith line "\\ "

/-- Reads a pattern. Remarks, blank lines and a lone slash are no patterns. -/
def parse? (line : String) : Except Flaw (Option Pattern) := do
  let text := if keepsLastBlank line then String.ofList (line.toList.dropWhile Text.isBlank)
    else Text.trim line
  if text.isEmpty || Text.startsWith text "#" || text == "/" then return none
  let restores := Text.startsWith text "!"
  let body := if restores then Text.skip 1 text else text
  let segments := collapseStars (Text.splitChar '/' body)
  if segments == ["**", ""] then return some ⟨restores, [.nested]⟩
  return some ⟨restores, ← itemsOf (normalize segments)⟩

def parseAll (lines : List String) : Except Flaw (List Pattern) := do
  return (← lines.mapM parse?).filterMap id

def excludes (patterns : List Pattern) (path : String) : Bool :=
  match patterns.reverse.find? fun p => p.hits path with
  | some p => !p.restores
  | none => false

end CodeAtlas.Ignore
