import CodeAtlas.Json.Reader
import CodeAtlas.Pattern.Syntax

/-!
# Reading patterns

The usual notation of patterns: alternatives, groups, sets, repetitions, anchors and escapes. `none`
means that a text is no pattern.
-/

namespace CodeAtlas.Pattern

structure Flags where
  dotAll : Bool := false
  lines : Bool := false

/-- What may be done with an element of a pattern: an anchor cannot be repeated, and a repetition
cannot be repeated again. -/
inductive ItemKind where
  | plain
  | anchor
  | repetition
deriving DecidableEq

abbrev Items := List (Pattern × ItemKind)

def ofItems (items : Items) : Pattern :=
  ofList (items.reverse.map (·.1))

def hexChar? (count : Nat) (cs : List Char) : Option (Char × List Char) := do
  let digits := cs.take count
  guard (digits.length == count)
  let value ← digits.foldlM (fun acc c => (Json.hexValue? c).map fun d => acc * 16 + d) 0
  guard (value < 0x110000)
  return (Char.ofNat value, cs.drop count)

def isOctal (c : Char) : Bool :=
  '0' ≤ c && c ≤ '7'

def octalChar (digits : List Char) : Char :=
  Char.ofNat (digits.foldl (fun acc c => acc * 8 + (c.toNat - '0'.toNat)) 0)

def isBasicLetter (c : Char) : Bool :=
  ('a' ≤ c && c ≤ 'z') || ('A' ≤ c && c ≤ 'Z')

def kindOf? : Char → Option (CharKind × Bool)
  | 'd' => some (.digit, false)
  | 'D' => some (.digit, true)
  | 's' => some (.blank, false)
  | 'S' => some (.blank, true)
  | 'w' => some (.word, false)
  | 'W' => some (.word, true)
  | _ => none

def literalEscape? (c : Char) (rest : List Char) : Option (Char × List Char) :=
  match c with
  | 'a' => some ('\x07', rest)
  | 'f' => some ('\x0c', rest)
  | 'n' => some ('\n', rest)
  | 'r' => some ('\r', rest)
  | 't' => some ('\t', rest)
  | 'v' => some ('\x0b', rest)
  | 'x' => hexChar? 2 rest
  | 'u' => hexChar? 4 rest
  | 'U' => hexChar? 8 rest
  | '0' =>
    let digits := (rest.take 2).takeWhile isOctal
    some (octalChar digits, rest.drop digits.length)
  | _ =>
    if Json.isDigit c then
      let digits := c :: (rest.take 2).takeWhile isOctal
      if digits.length == 3 && isOctal c then some (octalChar digits, rest.drop 2) else none
    else if isBasicLetter c then none
    else some (c, rest)

def escape? (c : Char) (rest : List Char) : Option ((Pattern × ItemKind) × List Char) :=
  match c with
  | 'A' => some ((.start false, .anchor), rest)
  | 'Z' => some ((.fullStop, .anchor), rest)
  | 'b' => some ((.edge false, .anchor), rest)
  | 'B' => some ((.edge true, .anchor), rest)
  | _ =>
    match kindOf? c with
    | some (k, negated) => some ((.set false [.kind k negated], .plain), rest)
    | none => (literalEscape? c rest).map fun (d, rest) => ((.char d, .plain), rest)

def setMember? : List Char → Option (SetItem × List Char)
  | '\\' :: 'b' :: rest => some (.range '\x08' '\x08', rest)
  | '\\' :: c :: rest =>
    match kindOf? c with
    | some (k, negated) => some (.kind k negated, rest)
    | none => (literalEscape? c rest).map fun (d, rest) => (.range d d, rest)
  | ['\\'] => none
  | c :: rest => some (.range c c, rest)
  | [] => none

def memberChar? : SetItem → Option Char
  | .range c d => if c == d then some c else none
  | .kind _ _ => none

/-- The members of a set up to its closing bracket. `steps` bounds their number. -/
def setMembers? : (steps : Nat) → List SetItem → List Char → Option (List SetItem × List Char)
  | 0, _, _ => none
  | n + 1, items, cs =>
    match cs, items with
    | ']' :: rest, _ :: _ => some (items.reverse, rest)
    | cs, items => do
      let (first, rest) ← setMember? cs
      match rest with
      | '-' :: ']' :: rest => return ((.range '-' '-' :: first :: items).reverse, rest)
      | '-' :: rest =>
        let (last, rest) ← setMember? rest
        let a ← memberChar? first
        let b ← memberChar? last
        guard (a ≤ b)
        setMembers? n (.range a b :: items) rest
      | rest => setMembers? n (first :: items) rest

def set? (cs : List Char) : Option (Pattern × List Char) :=
  match cs with
  | '^' :: rest =>
    (setMembers? (rest.length + 1) [] rest).map fun (items, rest) => (.set true items, rest)
  | cs => (setMembers? (cs.length + 1) [] cs).map fun (items, rest) => (.set false items, rest)

/-- The limits between braces; `none` if the text after an opening brace gives none. -/
def limits? (cs : List Char) : Option ((Nat × Option Nat) × List Char) :=
  let low := cs.takeWhile Json.isDigit
  let value (ds : List Char) : Option Nat := if ds.isEmpty then none else some (Json.digitsValue ds)
  match cs.dropWhile Json.isDigit with
  | ',' :: rest =>
    let high := rest.takeWhile Json.isDigit
    match rest.dropWhile Json.isDigit with
    | '\x7d' :: rest => some (((value low).getD 0, value high), rest)
    | _ => none
  | '\x7d' :: rest => if low.isEmpty then none else some (((value low).getD 0, value low), rest)
  | _ => none

def repeatLast? (least : Nat) (most : Option Nat) (items : Items) (rest : List Char) :
    Option (Items × List Char) := do
  guard (most.all (least ≤ ·))
  match items with
  | (p, .plain) :: before =>
    let rest := match rest with
      | '?' :: rest => rest
      | '+' :: rest => rest
      | rest => rest
    return ((.times least most p, .repetition) :: before, rest)
  | _ => none

def Flags.with? (f : Flags) : List Char → Option Flags
  | [] => some f
  | c :: rest =>
    match c with
    | 's' => Flags.with? { f with dotAll := true } rest
    | 'm' => Flags.with? { f with lines := true } rest
    | 'i' | 'u' => Flags.with? f rest
    | _ => none

def flags? (f : Flags) (cs : List Char) : Option (Flags × List Char) :=
  let letters := cs.takeWhile isBasicLetter
  match cs.dropWhile isBasicLetter with
  | ')' :: rest => if letters.isEmpty then none else (f.with? letters).map fun f => (f, rest)
  | _ => none

def groupStart? : List Char → Option ((Pattern → Option Pattern) × List Char)
  | '?' :: ':' :: rest => some (some, rest)
  | '?' :: '=' :: rest => some (fun p => some (.ahead false p), rest)
  | '?' :: '!' :: rest => some (fun p => some (.ahead true p), rest)
  | '?' :: '<' :: '=' :: rest =>
    some (fun p => if p.hasFixedWidth then some (.behind false p) else none, rest)
  | '?' :: '<' :: '!' :: rest =>
    some (fun p => if p.hasFixedWidth then some (.behind true p) else none, rest)
  | '?' :: 'P' :: '<' :: rest =>
    let name := rest.takeWhile (· != '>')
    match rest.dropWhile (· != '>') with
    | _ :: rest =>
      if !name.isEmpty && name.all Text.isWord && !name.head?.any Text.isDecimal then some
        (some, rest) else none
    | [] => none
  | '?' :: _ => none
  | rest => some (some, rest)

mutual

/-- Alternatives up to a closing parenthesis or the end. `steps` bounds the number of elements. -/
def alternatives? (f : Flags) :
    (steps : Nat) → (nested : Bool) → List Char → Option (Pattern × List Char)
  | 0, _, _ => none
  | n + 1, nested, cs => do
    let (p, rest) ← elements? f n nested [] cs
    match rest with
    | '|' :: rest =>
      let (q, rest) ← alternatives? f n nested rest
      return (.alt p q, rest)
    | rest => return (p, rest)

def elements? (f : Flags) : (steps : Nat) → (nested : Bool) → Items → List Char →
    Option (Pattern × List Char)
  | 0, _, _, _ => none
  | n + 1, nested, items, cs =>
    match cs with
    | [] => some (ofItems items, [])
    | '|' :: rest => some (ofItems items, '|' :: rest)
    | ')' :: rest => if nested then some (ofItems items, ')' :: rest) else none
    | '.' :: rest => elements? f n nested ((.any f.dotAll, .plain) :: items) rest
    | '^' :: rest => elements? f n nested ((.start f.lines, .anchor) :: items) rest
    | '$' :: rest => elements? f n nested ((.stop f.lines, .anchor) :: items) rest
    | '*' :: rest => do
      let (items, rest) ← repeatLast? 0 none items rest
      elements? f n nested items rest
    | '+' :: rest => do
      let (items, rest) ← repeatLast? 1 none items rest
      elements? f n nested items rest
    | '?' :: rest => do
      let (items, rest) ← repeatLast? 0 (some 1) items rest
      elements? f n nested items rest
    | '\x7b' :: rest =>
      match limits? rest with
      | some ((least, most), rest) => do
        let (items, rest) ← repeatLast? least most items rest
        elements? f n nested items rest
      | none => elements? f n nested ((.char '\x7b', .plain) :: items) rest
    | '[' :: rest => do
      let (p, rest) ← set? rest
      elements? f n nested ((p, .plain) :: items) rest
    | ['\\'] => none
    | '\\' :: c :: rest => do
      let (item, rest) ← escape? c rest
      elements? f n nested (item :: items) rest
    | '(' :: '?' :: '#' :: rest =>
      match rest.dropWhile (· != ')') with
      | _ :: rest => elements? f n nested items rest
      | [] => none
    | '(' :: rest => do
      let (make, rest) ← groupStart? rest
      let (p, rest) ← alternatives? f n true rest
      match rest with
      | ')' :: rest => elements? f n nested ((← make p, .plain) :: items) rest
      | _ => none
    | c :: rest => elements? f n nested ((.char c, .plain) :: items) rest

end

/-- The flags at the start of a pattern, and the pattern after them. `steps` bounds their number. -/
def leadingFlags (f : Flags) : (steps : Nat) → List Char → Flags × List Char
  | 0, cs => (f, cs)
  | n + 1, '(' :: '?' :: rest =>
    match flags? f rest with
    | some (g, rest) => leadingFlags g n rest
    | none => (f, '(' :: '?' :: rest)
  | _ + 1, cs => (f, cs)

def parse? (s : String) : Option Pattern :=
  let (f, cs) := leadingFlags {} s.length s.toList
  match alternatives? f (2 * cs.length + 2) false cs with
  | some (p, []) => some p
  | _ => none

end CodeAtlas.Pattern
