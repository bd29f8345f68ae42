import CodeAtlas.Data.OrderedMap
import CodeAtlas.Project.Files

/-!
# Environment variables

A file in the directory of a project may add variables to those that are set, but changes none. Each
of its lines sets a variable: a name, an equals sign and a value, which may stand in quotes. A
remark starts with a number sign.
-/

namespace CodeAtlas

abbrev Environment := OrderedMap String String

namespace Environment

def isGap (c : Char) : Bool :=
  Text.isBlank c && c != '\r' && c != '\n'

def isLineEnd (c : Char) : Bool :=
  c == '\r' || c == '\n'

def skipGap (cs : List Char) : List Char :=
  cs.dropWhile isGap

def untilQuote? (quote : Char) : List Char → Option (List Char × List Char)
  | [] => none
  | '\\' :: c :: rest =>
    if c == quote then (untilQuote? quote rest).map fun (v, more) => ('\\' :: c :: v, more)
    else (untilQuote? quote (c :: rest)).map fun (v, more) => ('\\' :: v, more)
  | c :: rest =>
    if c == quote then some ([], rest)
    else (untilQuote? quote rest).map fun (v, more) => (c :: v, more)

def escapeOf? (c : Char) : Option Char :=
  match c with
  | '\\' => some '\\'
  | '\'' => some '\''
  | '"' => some '"'
  | 'a' => some '\x07'
  | 'b' => some '\x08'
  | 'f' => some '\x0c'
  | 'n' => some '\n'
  | 'r' => some '\r'
  | 't' => some '\t'
  | 'v' => some '\x0b'
  | _ => none

def plainEscapeOf? (c : Char) : Option Char :=
  if c == '\\' || c == '\'' then some c else none

/-- A text with its escapes resolved; an unknown escape stays as it is. -/
def unescape (escape : Char → Option Char) : List Char → List Char
  | '\\' :: c :: rest =>
    match escape c with
    | some d => d :: unescape escape rest
    | none => '\\' :: unescape escape (c :: rest)
  | c :: rest => c :: unescape escape rest
  | [] => []

/-- A value without a remark after it: a gap and a number sign end it. -/
def untilRemark : List Char → List Char
  | [] => []
  | c :: rest =>
    if Text.isBlank c && (rest.dropWhile Text.isBlank).head? == some '#' then []
    else c :: untilRemark rest

/-- A value and what follows it; `none` for a quote that is not closed. -/
def value? : List Char → Option (List Char × List Char)
  | '\'' :: rest => (untilQuote? '\'' rest).map fun (v, more) => (unescape plainEscapeOf? v, more)
  | '"' :: rest => (untilQuote? '"' rest).map fun (v, more) => (unescape escapeOf? v, more)
  | cs =>
    let line := cs.takeWhile fun c => !isLineEnd c
    some ((Text.trimRight (String.ofList (untilRemark line))).toList,
      cs.dropWhile fun c => !isLineEnd c)

def name? : List Char → Option (Option String × List Char)
  | '#' :: rest => some (none, '#' :: rest)
  | '\'' :: rest =>
    let name := rest.takeWhile (· != '\'')
    match rest.dropWhile (· != '\'') with
    | _ :: more => if name.isEmpty then none else some (some (String.ofList name), more)
    | [] => none
  | cs =>
    let isNameChar (c : Char) : Bool := !(c == '=' || c == '#' || Text.isBlank c)
    let name := cs.takeWhile isNameChar
    if name.isEmpty then none else some (some (String.ofList name), cs.dropWhile isNameChar)

def skipExport (cs : List Char) : List Char :=
  if "export".toList.isPrefixOf cs && ((cs.drop 6).head?.map isGap).getD false then skipGap
    (cs.drop 6)
  else cs

def binding? (cs : List Char) : Option (Option String × Option String × List Char) := do
  let (name, rest) ← name? (skipExport cs)
  let rest := skipGap rest
  let (value, rest) ← match rest with
    | '=' :: more => (value? (skipGap more)).map fun (v, rest) => (some (String.ofList v), rest)
    | rest => some (none, rest)
  let rest := match skipGap rest with
    | '#' :: more => more.dropWhile fun c => !isLineEnd c
    | _ => rest
  match skipGap rest with
  | [] => some (name, value, [])
  | c :: more => if isLineEnd c then some (name, value, more) else none

/-- The pairs of names and values that a text sets. A line with a mistake sets nothing. `steps`
bounds the number of lines. -/
def bindingsFrom : (steps : Nat) → List Char → List (String × Option String)
  | 0, _ => []
  | n + 1, cs =>
    match cs.dropWhile Text.isBlank with
    | [] => []
    | cs =>
      match binding? cs with
      | some (some name, value, rest) => (name, value) :: bindingsFrom n rest
      | some (none, _, rest) => bindingsFrom n rest
      | none => bindingsFrom n (cs.dropWhile fun c => !isLineEnd c)

def bindings (text : String) : List (String × Option String) :=
  bindingsFrom text.length text.toList

def reference? (cs : List Char) : Option (String × String × List Char) :=
  match cs with
  | '$' :: '\x7b' :: rest =>
    let name := rest.takeWhile fun c => c != '\x7d' && c != ':'
    match rest.dropWhile fun c => c != '\x7d' && c != ':' with
    | '\x7d' :: more => some (String.ofList name, "", more)
    | ':' :: '-' :: more =>
      match more.dropWhile (· != '\x7d') with
      | _ :: after => some (String.ofList name, String.ofList (more.takeWhile (· != '\x7d')), after)
      | [] => none
    | _ => none
  | _ => none

/-- A value with its references to variables replaced. `steps` bounds the number of characters. -/
def expandFrom (known : String → Option String) : (steps : Nat) → List Char → List Char
  | 0, cs => cs
  | _ + 1, [] => []
  | n + 1, c :: cs =>
    match reference? (c :: cs) with
    | some (name, default, rest) => ((known name).getD default).toList ++ expandFrom known n rest
    | none => c :: expandFrom known n cs

def withText (env : Environment) (text : String) : Environment :=
  let values := (bindings text).foldl (fun (m : OrderedMap String (Option String)) (name, value) =>
    let known (v : String) : Option String := (env.get? v).or ((m.get? v).bind id)
    m.insert name (value.map fun v => String.ofList (expandFrom known v.length v.toList))) {}
  values.entries.foldl (fun e (name, value) =>
    match value with
    | some v => if e.contains name then e else e.insert name v
    | none => e) env

def withProject (env : Environment) (files : Files) (root : Path) : Environment :=
  match files.text? (root.child ".env") with
  | some text => withText env text
  | none => env

/-- Sets the variables of the project's file; fails where there is one that cannot be read. -/
def load (env : Environment) (files : Files) (root : Path) : Except Failure Environment :=
  match files.entry? (root.child ".env") with
  | some (.closed (.file _)) => .error (.denied (root.child ".env").toText)
  | _ => .ok (env.withProject files root)

end Environment

end CodeAtlas
