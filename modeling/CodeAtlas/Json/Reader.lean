import CodeAtlas.Decimal.Binary
import CodeAtlas.Json.Value

/-!
# Reading JSON

`parse?` reads a text that holds one value and nothing else. Besides the standard's grammar it
accepts the words `NaN`, `Infinity` and `-Infinity`. When a key is repeated, its last value counts.

Every second step of the recursion reads a character, so twice the length of the text bounds its
depth.
-/

namespace CodeAtlas.Json

def isGap (c : Char) : Bool :=
  c == ' ' || c == '\t' || c == '\n' || c == '\r'

def skipGap (cs : List Char) : List Char :=
  cs.dropWhile isGap

def readWord? : (word : List Char) → List Char → Option (List Char)
  | [], cs => some cs
  | w :: ws, c :: cs => if w = c then readWord? ws cs else none
  | _ :: _, [] => none

def hexValue? (c : Char) : Option Nat :=
  if '0' ≤ c && c ≤ '9' then some (c.toNat - '0'.toNat)
  else if 'a' ≤ c && c ≤ 'f' then some (c.toNat - 'a'.toNat + 10)
  else if 'A' ≤ c && c ≤ 'F' then some (c.toNat - 'A'.toNat + 10)
  else none

def unit? (a b c d : Char) : Option Nat := do
  return (((← hexValue? a) * 16 + (← hexValue? b)) * 16 + (← hexValue? c)) * 16 + (← hexValue? d)

def shortEscape? (c : Char) : Option Char :=
  if c == '"' || c == '\\' || c == '/' then some c
  else if c == 'b' then some (Char.ofNat 8)
  else if c == 'f' then some (Char.ofNat 12)
  else if c == 'n' then some '\n'
  else if c == 'r' then some '\r'
  else if c == 't' then some '\t'
  else none

def isHighUnit (n : Nat) : Bool := 0xD800 ≤ n && n ≤ 0xDBFF

def isLowUnit (n : Nat) : Bool := 0xDC00 ≤ n && n ≤ 0xDFFF

def loneUnit (n : Nat) : Char :=
  if isHighUnit n || isLowUnit n then Char.ofNat 0xFFFD else Char.ofNat n

def readString? : List Char → Option (List Char × List Char)
  | [] => none
  | '"' :: cs => some ([], cs)
  | '\\' :: 'u' :: a :: b :: c :: d :: '\\' :: 'u' :: a' :: b' :: c' :: d' :: cs => do
    let high ← unit? a b c d
    match unit? a' b' c' d' with
    | some low =>
      if isHighUnit high && isLowUnit low then
        let (rest, after) ← readString? cs
        return (Char.ofNat (0x10000 + (high - 0xD800) * 1024 + (low - 0xDC00)) :: rest, after)
      else
        let (rest, after) ← readString? ('\\' :: 'u' :: a' :: b' :: c' :: d' :: cs)
        return (loneUnit high :: rest, after)
    | none => none
  | '\\' :: 'u' :: a :: b :: c :: d :: cs => do
    let n ← unit? a b c d
    let (rest, after) ← readString? cs
    return (loneUnit n :: rest, after)
  | '\\' :: e :: cs => do
    let c ← shortEscape? e
    let (rest, after) ← readString? cs
    return (c :: rest, after)
  | c :: cs =>
    if c.toNat < 32 || c == '\\' then none
    else do
      let (rest, after) ← readString? cs
      return (c :: rest, after)

def digitsValue (ds : List Char) : Nat :=
  ds.foldl (fun n d => n * 10 + (d.toNat - '0'.toNat)) 0

def isDigit (c : Char) : Bool :=
  '0' ≤ c && c ≤ '9'

/-- Reads the digits of a whole part: no zero stands before other digits. -/
def readWhole? (cs : List Char) : Option (List Char × List Char) :=
  match cs with
  | '0' :: rest => some (['0'], rest)
  | _ =>
    let ds := cs.takeWhile isDigit
    if ds.isEmpty then none else some (ds, cs.dropWhile isDigit)

def readFraction (cs : List Char) : List Char × List Char :=
  match cs with
  | '.' :: rest =>
    let ds := rest.takeWhile isDigit
    if ds.isEmpty then ([], cs) else (ds, rest.dropWhile isDigit)
  | _ => ([], cs)

def readExponent (cs : List Char) : Option Int × List Char :=
  match cs with
  | e :: rest =>
    if e == 'e' || e == 'E' then
      let (neg, body) := match rest with
        | '-' :: body => (true, body)
        | '+' :: body => (false, body)
        | body => (false, body)
      let ds := body.takeWhile isDigit
      if ds.isEmpty then (none, cs)
      else
        let n : Int := digitsValue ds
        (some (if neg then -n else n), body.dropWhile isDigit)
    else (none, cs)
  | [] => (none, [])

def readNumber? (neg : Bool) (cs : List Char) : Option (Json × List Char) := do
  let (whole, rest) ← readWhole? cs
  let (fraction, rest) := readFraction rest
  let (exponent, rest) := readExponent rest
  if fraction.isEmpty && exponent.isNone then
    let n : Int := digitsValue whole
    return (.int (if neg then -n else n), rest)
  else
    let mant := digitsValue (whole ++ fraction)
    return (.float (Decimal.toFloat neg mant (exponent.getD 0 - fraction.length)), rest)

def readScalar? (cs : List Char) : Option (Json × List Char) :=
  match cs with
  | '"' :: rest => (readString? rest).map fun (s, after) => (.str (String.ofList s), after)
  | 'n' :: _ => (readWord? "null".toList cs).map (.null, ·)
  | 't' :: _ => (readWord? "true".toList cs).map (.bool true, ·)
  | 'f' :: _ => (readWord? "false".toList cs).map (.bool false, ·)
  | 'N' :: _ => (readWord? "NaN".toList cs).map (.float (0.0 / 0.0), ·)
  | 'I' :: _ => (readWord? "Infinity".toList cs).map (.float (1.0 / 0.0), ·)
  | '-' :: 'I' :: rest => (readWord? "nfinity".toList rest).map (.float (-1.0 / 0.0), ·)
  | '-' :: rest => readNumber? true rest
  | _ => readNumber? false cs

mutual

def readValue? : (depth : Nat) → List Char → Option (Json × List Char)
  | 0, _ => none
  | depth + 1, cs =>
    match cs with
    | '[' :: rest =>
      match skipGap rest with
      | ']' :: after => some (.arr [], after)
      | _ => (readItems? depth rest).map fun (items, after) => (.arr items, after)
    | '\x7b' :: rest =>
      match skipGap rest with
      | '\x7d' :: after => some (.obj [], after)
      | _ => (readFields? depth [] rest).map fun (fields, after) => (.obj fields, after)
    | _ => readScalar? cs

def readItems? : (depth : Nat) → List Char → Option (List Json × List Char)
  | 0, _ => none
  | depth + 1, cs => do
    let (item, rest) ← readValue? depth (skipGap cs)
    match skipGap rest with
    | ',' :: more =>
      let (items, after) ← readItems? depth more
      return (item :: items, after)
    | ']' :: after => return ([item], after)
    | _ => none

/-- Reads the fields of an object up to its closing brace, after those read before. -/
def readFields? : (depth : Nat) → (before : List (String × Json)) → List Char →
    Option (List (String × Json) × List Char)
  | 0, _, _ => none
  | depth + 1, before, cs => do
    match skipGap cs with
    | '"' :: rest =>
      let (key, rest) ← readString? rest
      match skipGap rest with
      | ':' :: rest =>
        let (value, rest) ← readValue? depth (skipGap rest)
        let fields := put (String.ofList key) value before
        match skipGap rest with
        | ',' :: more => readFields? depth fields more
        | '\x7d' :: after => return (fields, after)
        | _ => none
      | _ => none
    | _ => none

end

def parse? (s : String) : Option Json := do
  let cs := s.toList
  let (value, rest) ← readValue? (2 * cs.length + 2) (skipGap cs)
  if (skipGap rest).isEmpty then return value else none

end CodeAtlas.Json
