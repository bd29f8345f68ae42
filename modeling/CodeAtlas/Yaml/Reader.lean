import CodeAtlas.Yaml.Scalar

/-!
# Reading YAML documents

`parse?` reads a text that holds at most one document: block lists and mappings by indentation,
lists and mappings in brackets, plain, quoted and block scalars, and remarks. An anchor on a value
is skipped; aliases and tags are refused.

Every second step of the recursion passes a line or a character, so twice the size of the document
bounds its depth.
-/

namespace CodeAtlas.Yaml

def skipLines (lines : List Line) : List Line :=
  lines.dropWhile fun l => l.text.isEmpty || l.text.head? == some '#'

def nextToken (c : Cursor) : Cursor :=
  if isDone c.here then
    match skipLines c.below with
    | l :: rest => ⟨l.text, rest⟩
    | [] => ⟨[], []⟩
  else { c with here := skipSpaces c.here }

def startsItem : List Char → Bool
  | '-' :: rest => rest.head?.all isSpace
  | _ => false

mutual

def readFlow? : (steps : Nat) → Cursor → Option (Yaml × Cursor)
  | 0, _ => none
  | n + 1, c =>
    let c := nextToken c
    match c.here with
    | '[' :: rest => readFlowList? n [] { c with here := rest }
    | '\x7b' :: rest => readFlowMap? n [] { c with here := rest }
    | '"' :: rest => do
      let (text, after) ← readQuoted? true c.size [] { c with here := rest }
      return (.str (String.ofList text), after)
    | '\'' :: rest => do
      let (text, after) ← readQuoted? false c.size [] { c with here := rest }
      return (.str (String.ofList text), after)
    | cs =>
      if startsPlain true cs then
        let (text, after) := readPlain true (-1) c
        some (resolve (String.ofList text), after)
      else none

def readFlowList? : (steps : Nat) → List Yaml → Cursor → Option (Yaml × Cursor)
  | 0, _, _ => none
  | n + 1, items, c =>
    let c := nextToken c
    match c.here with
    | ']' :: rest => some (.list items, { c with here := rest })
    | _ => do
      let (key, after) ← readFlow? n c
      let after := nextToken after
      let (item, after) ← match after.here with
        | ':' :: rest => do
          guard key.isScalar
          let (value, after) ← readFlowValue? n { after with here := rest }
          some (Yaml.map [(key, value)], after)
        | _ => some (key, after)
      let after := nextToken after
      match after.here with
      | ',' :: rest => readFlowList? n (items ++ [item]) { after with here := rest }
      | ']' :: rest => some (.list (items ++ [item]), { after with here := rest })
      | _ => none

def readFlowMap? : (steps : Nat) → List (Yaml × Yaml) → Cursor → Option (Yaml × Cursor)
  | 0, _, _ => none
  | n + 1, entries, c =>
    let c := nextToken c
    match c.here with
    | '\x7d' :: rest => some (.map entries, { c with here := rest })
    | _ => do
      let (key, after) ← readFlow? n c
      guard key.isScalar
      let after := nextToken after
      let (value, after) ← match after.here with
        | ':' :: rest => readFlowValue? n { after with here := rest }
        | _ => some (Yaml.null, after)
      let entries := putEntry key value entries
      let after := nextToken after
      match after.here with
      | ',' :: rest => readFlowMap? n entries { after with here := rest }
      | '\x7d' :: rest => some (.map entries, { after with here := rest })
      | _ => none

/-- Reads a value after a colon inside brackets; it may be left out. -/
def readFlowValue? : (steps : Nat) → Cursor → Option (Yaml × Cursor)
  | 0, _ => none
  | n + 1, c =>
    let c := nextToken c
    if c.here.head?.any fun ch => ch == ',' || ch == ']' || ch == '\x7d' then some (.null, c)
    else readFlow? n c

end

def readKey? (text : List Char) : Option (Yaml × List Char) := do
  let afterKey (key : Yaml) (rest : List Char) : Option (Yaml × List Char) :=
    match skipSpaces rest with
    | ':' :: value => if value.head?.all isSpace then some (key, value) else none
    | _ => none
  match text with
  | '"' :: rest =>
    let (key, after) ← readQuoted? true (rest.length + 1) [] ⟨rest, []⟩
    afterKey (.str (String.ofList key)) after.here
  | '\'' :: rest =>
    let (key, after) ← readQuoted? false (rest.length + 1) [] ⟨rest, []⟩
    afterKey (.str (String.ofList key)) after.here
  | _ =>
    guard (startsPlain false text)
    let (key, rest) := takePlain false text.length text
    afterKey (resolve (String.ofList key)) rest

/-- The lines after a value, if nothing but a remark follows it on its line. -/
def lineDone? (c : Cursor) : Option (List Line) :=
  if isDone c.here then some c.below else none

def readInline? (parent : Int) (c : Cursor) : Option (Yaml × List Line) := do
  match c.here with
  | '[' :: _ | '\x7b' :: _ =>
    let (v, after) ← readFlow? (2 * c.size) c
    return (v, ← lineDone? after)
  | '"' :: rest =>
    let (text, after) ← readQuoted? true c.size [] { c with here := rest }
    return (.str (String.ofList text), ← lineDone? after)
  | '\'' :: rest =>
    let (text, after) ← readQuoted? false c.size [] { c with here := rest }
    return (.str (String.ofList text), ← lineDone? after)
  | '|' :: rest =>
    let (text, after) ← readBlock? false parent { c with here := rest }
    return (.str (String.ofList text), after)
  | '>' :: rest =>
    let (text, after) ← readBlock? true parent { c with here := rest }
    return (.str (String.ofList text), after)
  | cs =>
    guard (startsPlain false cs)
    let (text, after) := readPlain false parent c
    return (resolve (String.ofList text), ← lineDone? after)

def skipAnchor (cs : List Char) : List Char :=
  match cs with
  | '&' :: rest => skipSpaces (rest.dropWhile fun c => !isSpace c)
  | _ => cs

mutual

/-- Reads the value of the lines that are indented by more than `parent`; null if there are none. -/
def readNode? : (steps : Nat) → (parent : Int) → List Line → Option (Yaml × List Line)
  | 0, _, _ => none
  | n + 1, parent, lines =>
    match skipLines lines with
    | [] => some (.null, [])
    | l :: rest =>
      if l.isMarker || (l.indent : Int) ≤ parent then some (.null, l :: rest)
      else if startsItem l.text then readItems? n l.indent [] (l :: rest)
      else if (readKey? l.text).isSome then readEntries? n l.indent [] (l :: rest)
      else readInline? parent ⟨skipAnchor l.text, rest⟩

def readItems? : (steps : Nat) → (indent : Nat) → List Yaml → List Line → Option (Yaml × List Line)
  | 0, _, _, _ => none
  | n + 1, indent, items, lines =>
    match skipLines lines with
    | [] => some (.list items, [])
    | l :: rest =>
      if l.indent = indent && startsItem l.text && !l.isMarker then do
        let body := l.text.drop 1
        let gap := (body.takeWhile (· == ' ')).length
        let below := if isDone body then rest
          else { l with indent := indent + 1 + gap, text := skipAnchor (skipSpaces body) } :: rest
        let (item, after) ← readNode? n indent below
        readItems? n indent (items ++ [item]) after
      else if indent < l.indent then none
      else some (.list items, l :: rest)

def readEntries? : (steps : Nat) → (indent : Nat) → List (Yaml × Yaml) → List Line →
    Option (Yaml × List Line)
  | 0, _, _, _ => none
  | n + 1, indent, entries, lines =>
    match skipLines lines with
    | [] => some (.map entries, [])
    | l :: rest =>
      if l.isMarker || l.indent < indent then some (.map entries, l :: rest)
      else if l.indent ≠ indent || startsItem l.text then none
      else do
        let (key, value) ← readKey? l.text
        let body := skipAnchor (skipSpaces value)
        let (v, after) ←
          if isDone body then
            match skipLines rest with
            | next :: more =>
              if next.indent = indent && startsItem next.text && !next.isMarker then
                readItems? n indent [] (next :: more)
              else readNode? n indent (next :: more)
            | [] => some (Yaml.null, [])
          else if startsItem body then none
          else readInline? indent ⟨body, rest⟩
        readEntries? n indent (putEntry key v entries) after

end

def isAllowed (c : Char) : Bool :=
  let n := c.toNat
  n == 9 || n == 10 || n == 13 || (32 ≤ n && n ≤ 126) || n == 133 ||
    (160 ≤ n && n ≠ 0xFFFE && n ≠ 0xFFFF)

def skipMarker : List Line → List Line
  | [] => []
  | l :: rest =>
    if l.isMarker && "---".toList.isPrefixOf l.text then
      let body := l.text.drop 3
      if isDone body then rest
      else { l with indent := 3 + (body.takeWhile (· == ' ')).length, text := skipSpaces body } ::
        rest
    else l :: rest

def parse? (text : String) : Option Yaml := do
  guard (text.toList.all isAllowed)
  let lines := skipMarker (skipLines (linesOf text))
  let (v, rest) ← readNode? (2 * (Cursor.mk [] lines).size) (-1) lines
  match skipLines rest with
  | [] => return v
  | l :: _ => if "...".toList.isPrefixOf l.text && l.isMarker then return v else none

end CodeAtlas.Yaml
