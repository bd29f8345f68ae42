import CodeAtlas.Json.Expect

/-!
# YAML values

A document is made of scalars, lists and mappings. A plain scalar may stand for null, a truth value,
a number or a date; every other scalar is a text. The entries of a mapping keep their order, and a
key that is repeated keeps its place and takes its last value.
-/

namespace CodeAtlas

inductive Yaml where
  | null
  | bool (b : Bool)
  | int (n : Int)
  | float (x : Float)
  /-- A calendar date, with or without a time, as it was written. -/
  | date (text : String)
  | str (s : String)
  | list (items : List Yaml)
  | map (entries : List (Yaml × Yaml))
deriving Inhabited, Repr

namespace Yaml

def nullWords : List String := ["", "~", "null", "Null", "NULL"]

def trueWords : List String := ["yes", "Yes", "YES", "true", "True", "TRUE", "on", "On", "ON"]

def falseWords : List String := ["no", "No", "NO", "false", "False", "FALSE", "off", "Off", "OFF"]

def isDigitOf (base : Nat) (c : Char) : Bool :=
  (Json.hexValue? c).any (· < base)

/-- The number that digits of a base spell; underscores between them are skipped. -/
def digitsOf? (base : Nat) (cs : List Char) : Option Nat :=
  if cs.isEmpty || cs.any fun c => !(isDigitOf base c || c == '_') then none
  else some (cs.foldl (fun n c => match Json.hexValue? c with
    | some d => n * base + d
    | none => n) 0)

/-- The number that groups of digits in base sixty spell, divided by colons. -/
def sexagesimal? (cs : List Char) : Option Nat :=
  match Json.isDigit <$> cs.head?, Text.splitBy (· == ':') cs with
  | some true, first :: second :: more =>
    if first.head? == some '0' then none
    else do
      let lead ← digitsOf? 10 first
      let parts ← (second :: more).mapM fun g =>
        if g.length ≤ 2 && g.all Json.isDigit then digitsOf? 10 g else none
      if parts.all (· < 60) then return parts.foldl (fun n d => n * 60 + d) lead
      none
  | _, _ => none

def wholeOf? (cs : List Char) : Option Nat :=
  match cs with
  | ['0'] => some 0
  | '0' :: 'b' :: ds => digitsOf? 2 ds
  | '0' :: 'x' :: ds => digitsOf? 16 ds
  | '0' :: ds => digitsOf? 8 ds
  | c :: _ => if Json.isDigit c then (digitsOf? 10 cs).orElse fun _ => sexagesimal? cs else none
  | [] => none

def pointedOf? (cs : List Char) : Option Float :=
  let plainDigits (ds : List Char) : List Char := ds.filter (· != '_')
  let isPlaced (c : Char) : Bool := Json.isDigit c || c == '_'
  let whole := cs.takeWhile isPlaced
  match cs.dropWhile isPlaced with
  | '.' :: rest =>
    let fraction := rest.takeWhile isPlaced
    let wholeOk := match whole with
      | c :: _ => Json.isDigit c
      | [] => fraction.head?.any Json.isDigit
    let rest := rest.dropWhile isPlaced
    let exponent : Option (Option Int) := match rest with
      | [] => some (some 0)
      | e :: s :: ds =>
        if (e == 'e' || e == 'E') && (s == '+' || s == '-') && !ds.isEmpty &&
          ds.all Json.isDigit then
          let n : Int := Json.digitsValue ds
          some (some (if s == '-' then -n else n))
        else none
      | _ => none
    match wholeOk, exponent with
    | true, some (some e) =>
      let f := plainDigits fraction
      some (Decimal.toFloat false (Json.digitsValue (plainDigits whole ++ f)) (e - f.length))
    | _, _ => none
  | _ => none

def isDate (cs : List Char) : Bool :=
  match Text.splitBy (· == '-') (cs.takeWhile fun c => Json.isDigit c || c == '-') with
  | [year, month, day] =>
    let rest := cs.dropWhile fun c => Json.isDigit c || c == '-'
    year.length == 4 && (if rest.isEmpty then month.length == 2 && day.length == 2
      else [1, 2].contains month.length && [1, 2].contains day.length &&
        rest.head?.any (fun c => c == 'T' || c == 't' || c == ' ' || c == '\t') &&
        rest.contains ':')
  | _ => false

def resolve (text : String) : Yaml :=
  if nullWords.contains text then .null
  else if trueWords.contains text then .bool true
  else if falseWords.contains text then .bool false
  else
    let (neg, body) := Json.splitSign text.toList
    match wholeOf? body with
    | some n => .int (if neg then -(n : Int) else n)
    | none =>
      match pointedOf? body with
      | some x => .float (if neg then -x else x)
      | none =>
        if [".inf", ".Inf", ".INF"].contains (String.ofList body) then
          .float (if neg then -(1.0 / 0.0) else 1.0 / 0.0)
        else if [".nan", ".NaN", ".NAN"].contains text then .float (0.0 / 0.0)
        else if isDate text.toList then .date text
        else .str text

def sameKey : Yaml → Yaml → Bool
  | .null, .null => true
  | .bool a, .bool b => a == b
  | .int a, .int b => a == b
  | .float a, .float b => a == b
  | .date a, .date b => a == b
  | .str a, .str b => a == b
  | _, _ => false

def isScalar : Yaml → Bool
  | .list _ | .map _ => false
  | _ => true

def putEntry (key value : Yaml) : List (Yaml × Yaml) → List (Yaml × Yaml)
  | [] => [(key, value)]
  | (k, v) :: rest => if sameKey k key then (k, value) :: rest else (k, v) ::
      putEntry key value rest

def hasTextKeys : List (Yaml × Yaml) → Bool
  | entries => entries.all fun e => match e.1 with
    | .str _ => true
    | _ => false

mutual

/-- The value without entries whose key is no text. A date has no such form. -/
def toJson? : Yaml → Option Json
  | .null => some .null
  | .bool b => some (.bool b)
  | .int n => some (.int n)
  | .float x => some (.float x)
  | .date _ => none
  | .str s => some (.str s)
  | .list items => (itemsToJson? items).map .arr
  | .map entries => (entriesToJson? entries).map .obj

def itemsToJson? : List Yaml → Option (List Json)
  | [] => some []
  | v :: rest => do
    let first ← toJson? v
    let others ← itemsToJson? rest
    return first :: others

def entriesToJson? : List (Yaml × Yaml) → Option (List (String × Json))
  | [] => some []
  | (k, v) :: rest => do
    let others ← entriesToJson? rest
    match k with
    | .str key =>
      let value ← toJson? v
      return (key, value) :: others
    | _ => return others

end

end Yaml

end CodeAtlas
