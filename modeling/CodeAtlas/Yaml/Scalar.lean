import CodeAtlas.Yaml.Value

/-!
# Scalars of YAML documents

A document is read as a list of lines. A scalar starts somewhere on a line and may go on over the
lines that follow; breaks inside a scalar are folded, one break into a blank and more breaks into
one fewer.
-/

namespace CodeAtlas.Yaml

/-- A line of a document: the number of blanks at its start, what follows them, and whether a line
break ends it. -/
structure Line where
  indent : Nat
  text : List Char
  ended : Bool := true
deriving Repr, Inhabited

structure Cursor where
  here : List Char
  below : List Line

def Line.ofChars (ended : Bool) (cs : List Char) : Line :=
  ⟨(cs.takeWhile (· == ' ')).length, cs.dropWhile (· == ' '), ended⟩

/-- Lines, of which only the last lacks a break; nothing stands after the last break. -/
def linesOfPieces : List (List Char) → List Line
  | [] => []
  | [cs] => if cs.isEmpty then [] else [Line.ofChars false cs]
  | cs :: rest => Line.ofChars true cs :: linesOfPieces rest

def linesOf (text : String) : List Line :=
  linesOfPieces (Text.splitBy (· == '\n') (Text.unixLines text).toList)

def Line.isMarker (l : Line) : Bool :=
  l.indent == 0 && ("---".toList.isPrefixOf l.text || "...".toList.isPrefixOf l.text) &&
    (l.text.drop 3).head?.all (fun c => c == ' ' || c == '\t')

def isSpace (c : Char) : Bool :=
  c == ' ' || c == '\t'

def skipSpaces (cs : List Char) : List Char :=
  cs.dropWhile (· == ' ')

def isDone (cs : List Char) : Bool :=
  match skipSpaces cs with
  | [] => true
  | c :: _ => c == '#'

def foldBreaks (breaks : Nat) : List Char :=
  if breaks = 1 then [' '] else List.replicate (breaks - 1) '\n'

/-- Whether a plain scalar ends in front of these characters. Inside brackets more characters end
it. -/
def endsWord (inFlow : Bool) : List Char → Bool
  | [] => true
  | c :: rest =>
    isSpace c ||
      (c == ':' && (rest.head?.all isSpace ||
        (inFlow && rest.head?.any fun d => ",[]\x7b\x7d".toList.contains d))) ||
      (inFlow && ",?[]\x7b\x7d".toList.contains c)

def takeWord (inFlow : Bool) : List Char → List Char × List Char
  | [] => ([], [])
  | c :: rest =>
    if endsWord inFlow (c :: rest) then ([], c :: rest)
    else
      let (word, after) := takeWord inFlow rest
      (c :: word, after)

/-- The part of a plain scalar that stands on one line, and the rest of the line. `steps` bounds the
number of words. -/
def takePlain (inFlow : Bool) : (steps : Nat) → List Char → List Char × List Char
  | 0, cs => ([], cs)
  | n + 1, cs =>
    match takeWord inFlow cs with
    | ([], _) => ([], cs)
    | (word, rest) =>
      let after := skipSpaces rest
      if rest.head? != some ' ' || after.isEmpty || after.head? == some '#' then (word, rest)
      else
        match takePlain inFlow n after with
        | ([], _) => (word, rest)
        | (more, end_) => (word ++ rest.takeWhile (· == ' ') ++ more, end_)

def startsPlain (inFlow : Bool) : List Char → Bool
  | [] => false
  | c :: rest =>
    (!isSpace c && !"-?:,[]\x7b\x7d#&*!|>'\"%@\x60".toList.contains c) ||
      ((c == '-' || (!inFlow && (c == '?' || c == ':'))) && rest.head?.any fun d => !isSpace d)

/-- The lines of a plain scalar below its first line: they are indented by more than `parent`. Gives
the text so far, the rest of the last line and the lines left. -/
def plainBelow (inFlow : Bool) (parent : Int) (text : List Char) (breaks : Nat) :
    List Line → List Char × Cursor
  | [] => (text, ⟨[], []⟩)
  | l :: rest =>
    if l.text.isEmpty then
      match plainBelow inFlow parent text (breaks + 1) rest with
      | (t, c) => if t.length == text.length then (text, ⟨[], l :: rest⟩) else (t, c)
    else if l.isMarker || l.text.head? == some '#' || (!inFlow && (l.indent : Int) ≤ parent) then
      (text, ⟨[], l :: rest⟩)
    else
      match takePlain inFlow l.text.length l.text with
      | ([], _) => (text, ⟨[], l :: rest⟩)
      | (more, end_) =>
        let text := text ++ foldBreaks breaks ++ more
        if (skipSpaces end_).isEmpty then plainBelow inFlow parent text 1 rest
        else (text, ⟨end_, rest⟩)

def readPlain (inFlow : Bool) (parent : Int) (c : Cursor) : List Char × Cursor :=
  let (text, end_) := takePlain inFlow c.here.length c.here
  if (skipSpaces end_).isEmpty then plainBelow inFlow parent text 1 c.below
  else (text, ⟨end_, c.below⟩)

def letterEscape? (c : Char) : Option Char :=
  [('0', 0), ('a', 7), ('b', 8), ('t', 9), ('\t', 9), ('n', 10), ('v', 11), ('f', 12), ('r', 13),
    ('e', 27), (' ', 32), ('"', 34), ('\\', 92), ('/', 47), ('N', 133), ('_', 160), ('L', 8232),
    ('P', 8233)].lookup c |>.map Char.ofNat

def hexEscape? (digits : Nat) (cs : List Char) : Option (Char × List Char) := do
  let ds := cs.take digits
  guard (ds.length == digits && ds.all (isDigitOf 16))
  let n ← digitsOf? 16 ds
  return (Char.ofNat n, cs.drop digits)

/-- Reads a quoted scalar after its opening quote. `held` are blanks that count only if more text
follows on the line. `steps` bounds the number of characters and lines. -/
def readQuoted? (double : Bool) : (steps : Nat) → (held : List Char) → Cursor →
    Option (List Char × Cursor)
  | 0, _, _ => none
  | n + 1, held, c =>
    match c.here with
    | [] =>
      let blank := c.below.takeWhile fun l => l.text.isEmpty
      match c.below.dropWhile fun l => l.text.isEmpty with
      | l :: rest => do
        guard !l.isMarker
        let (text, end_) ← readQuoted? double n [] ⟨l.text.dropWhile isSpace, rest⟩
        return (foldBreaks (blank.length + 1) ++ text, end_)
      | [] => none
    | ch :: rest =>
      let keep (out : List Char) (c : Cursor) : Option (List Char × Cursor) := do
        let (text, end_) ← readQuoted? double n [] c
        return (held ++ out ++ text, end_)
      if isSpace ch then readQuoted? double n (held ++ [ch]) { c with here := rest }
      else if double then
        if ch == '"' then some (held, { c with here := rest })
        else if ch == '\\' then
          match rest with
          | [] => do
            let blank := c.below.takeWhile fun l => l.text.isEmpty
            match c.below.dropWhile fun l => l.text.isEmpty with
            | l :: more =>
              let (text, end_) ← readQuoted? double n [] ⟨l.text, more⟩
              return (held ++ List.replicate blank.length '\n' ++ text, end_)
            | [] => none
          | 'x' :: ds => do
            let (out, after) ← hexEscape? 2 ds
            keep [out] { c with here := after }
          | 'u' :: ds => do
            let (out, after) ← hexEscape? 4 ds
            keep [out] { c with here := after }
          | 'U' :: ds => do
            let (out, after) ← hexEscape? 8 ds
            keep [out] { c with here := after }
          | e :: after => do
            let out ← letterEscape? e
            keep [out] { c with here := after }
        else keep [ch] { c with here := rest }
      else if ch == '\'' then
        match rest with
        | '\'' :: after => keep ['\''] { c with here := after }
        | _ => some (held, { c with here := rest })
      else keep [ch] { c with here := rest }

def Cursor.size (c : Cursor) : Nat :=
  c.here.length + c.below.foldr (fun l n => l.indent + l.text.length + 1 + n) 0 + 1

/-- What the end of a block scalar keeps of its line breaks. -/
inductive Chomp where
  | clip
  | strip
  | keep
deriving DecidableEq

/-- The marks after the sign of a block scalar: what its end keeps, and its indentation. -/
def blockMarks? : List Char → Option (Chomp × Option Nat)
  | [] => some (.clip, none)
  | ['+'] => some (.keep, none)
  | ['-'] => some (.strip, none)
  | [d] => if '1' ≤ d && d ≤ '9' then some (.clip, some (Json.digitsValue [d])) else none
  | [a, b] =>
    let digit (d : Char) (chomp : Chomp) : Option (Chomp × Option Nat) :=
      if '1' ≤ d && d ≤ '9' then some (chomp, some (Json.digitsValue [d])) else none
    if a == '+' then digit b .keep
    else if a == '-' then digit b .strip
    else if b == '+' then digit a .keep
    else if b == '-' then digit a .strip
    else none
  | _ => none

/-- What a line holds from a column on; `none` if it ends before that column and is blank. -/
def Line.fromColumn (l : Line) (column : Nat) : List Char :=
  List.replicate (l.indent - column) ' ' ++ l.text

def Line.isBreak (l : Line) (column : Nat) : Bool :=
  l.text.isEmpty && l.indent ≤ column

/-- The text of a block scalar whose lines start at a column. `breaks` line breaks have been read
since the last line with text; `last` is that line. -/
def blockText (folded : Bool) (column breaks : Nat) (last : Option (List Char)) :
    List Line → List Char × Nat × List Line
  | [] => ([], breaks, [])
  | l :: rest =>
    if l.isBreak column then
      blockText folded column (breaks + 1) last rest
    else if l.indent < column then ([], breaks, l :: rest)
    else
      let text := l.fromColumn column
      let lead : List Char := match last with
        | none => List.replicate breaks '\n'
        | some before =>
          let joins := folded && !before.head?.any isSpace && !text.head?.any isSpace
          if joins then (if breaks = 1 then [' '] else List.replicate (breaks - 1) '\n')
          else List.replicate breaks '\n'
      let (more, tail, end_) := blockText folded column (if l.ended then 1 else 0) (some text) rest
      (lead ++ text ++ more, tail, end_)

/-- The column at which the lines of a block scalar start: that of its first line with text, or of a
longer blank line before it. -/
def blockColumn (least : Nat) (lines : List Line) : Nat :=
  let blank := lines.takeWhile fun l => l.text.isEmpty
  let first := (lines.dropWhile fun l => l.text.isEmpty).head?.map (·.indent)
  max least ((blank.map (·.indent) ++ first.toList).foldl max 0)

def readBlock? (folded : Bool) (parent : Int) (c : Cursor) : Option (List Char × List Line) := do
  let marks := c.here.takeWhile fun ch => !isSpace ch
  guard (isDone (c.here.dropWhile fun ch => !isSpace ch))
  let (chomp, indent) ← blockMarks? marks
  let least := (max (parent + 1) 1).toNat
  let column := match indent with
    | some n => least + n - 1
    | none => blockColumn least c.below
  let (text, breaks, rest) := blockText folded column 0 none c.below
  match chomp with
  | .strip => return (text, rest)
  | .clip => return (if text.isEmpty || breaks = 0 then text else text ++ ['\n'], rest)
  | .keep => return (text ++ List.replicate breaks '\n', rest)

end CodeAtlas.Yaml
