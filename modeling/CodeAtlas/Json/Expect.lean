import CodeAtlas.Json.Reader
import CodeAtlas.Text.Case
import CodeAtlas.Text.Split
import CodeAtlas.Text.Trim

/-!
# Reading typed fields off JSON values

Each reader accepts the forms in which a value of its type is commonly written: a whole number also
as text, a truth value also as one of a few words. `none` means that the value has none of these
forms. Null is accepted only where a field is optional.
-/

namespace CodeAtlas.Json

def text? : Json → Option String
  | .str s => some s
  | _ => none

def groupedDigits? (cs : List Char) : Option Nat :=
  let groups := Text.splitBy (· == '_') cs
  if groups.all fun g => !g.isEmpty && g.all isDigit then some (digitsValue groups.flatten)
    else none

def splitSign : List Char → Bool × List Char
  | '-' :: cs => (true, cs)
  | '+' :: cs => (false, cs)
  | cs => (false, cs)

def intOfText? (s : String) : Option Int :=
  let (neg, ds) := splitSign (Text.trim s).toList
  (groupedDigits? ds).map fun n => if neg then -(n : Int) else n

def floatOfText? (s : String) : Option Float :=
  let (neg, body) := splitSign (Text.lowerChars (Text.trim s).toList)
  let signed (x : Float) : Float := if neg then -x else x
  if body == "nan".toList then some (0.0 / 0.0)
  else if body == "inf".toList || body == "infinity".toList then some (signed (1.0 / 0.0))
  else
    let whole := body.takeWhile isDigit
    let (fraction, rest) := match body.dropWhile isDigit with
      | '.' :: rest => (rest.takeWhile isDigit, rest.dropWhile isDigit)
      | rest => ([], rest)
    let (exponent, rest) := readExponent rest
    if (whole.isEmpty && fraction.isEmpty) || !rest.isEmpty then none
    else
      some (Decimal.toFloat neg (digitsValue (whole ++ fraction))
        (exponent.getD 0 - fraction.length))

def truncate? (x : Float) : Option Int :=
  match Decimal.Binary.ofFloat x with
  | .finite neg mant exp =>
    let (num, den) := Decimal.pow2 exp
    let n : Int := mant * num / den
    some (if neg then -n else n)
  | _ => none

def int? : Json → Option Int
  | .int n => some n
  | .bool b => some (if b then 1 else 0)
  | .float x => truncate? x
  | .str s => intOfText? s
  | _ => none

def float? : Json → Option Float
  | .float x => some x
  | .int n => some (Float.ofInt n)
  | .bool b => some (if b then 1.0 else 0.0)
  | .str s => floatOfText? s
  | _ => none

def bool? : Json → Option Bool
  | .bool b => some b
  | .int n => if n = 1 then some true else if n = 0 then some false else none
  | .float x => if x == 1.0 then some true else if x == 0.0 then some false else none
  | .str s =>
    let w := Text.lower s
    if ["1", "on", "t", "true", "y", "yes"].contains w then some true
    else if ["0", "off", "f", "false", "n", "no"].contains w then some false
    else none
  | _ => none

def list? {α : Type} (item : Json → Option α) : Json → Option (List α)
  | .arr items => items.mapM item
  | _ => none

def optional? {α : Type} (value : Json → Option α) : Json → Option (Option α)
  | .null => some none
  | v => (value v).map some

def field? {α : Type} (v : Json) (key : String) (read : Json → Option α) : Option α :=
  (v.get? key).bind read

def fieldOr? {α : Type} (v : Json) (key : String) (read : Json → Option α) (default : α) :
    Option α :=
  match v.get? key with
  | some w => read w
  | none => some default

def isObject : Json → Bool
  | .obj _ => true
  | _ => false

end CodeAtlas.Json
