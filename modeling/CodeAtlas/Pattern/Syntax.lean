import CodeAtlas.Text.Case

/-!
# Patterns for names

A pattern describes the texts in which it is found. Case is ignored throughout.
-/

namespace CodeAtlas

inductive CharKind where
  | word
  | digit
  | blank
deriving DecidableEq, Repr

def CharKind.holds : CharKind → Char → Bool
  | .word => Text.isWord
  | .digit => Text.isDecimal
  | .blank => Text.isBlank

inductive SetItem where
  | range (first last : Char)
  | kind (k : CharKind) (negated : Bool)
deriving DecidableEq, Repr

inductive Pattern where
  | nothing
  | char (c : Char)
  /-- Fits any character; a line feed only if `all` says so. -/
  | any (all : Bool)
  | set (negated : Bool) (items : List SetItem)
  | seq (p q : Pattern)
  | alt (p q : Pattern)
  /-- Fits a number of times, with or without an upper limit. -/
  | times (least : Nat) (most : Option Nat) (p : Pattern)
  /-- Fits at the start of the text or, where lines count, of a line. -/
  | start (lines : Bool)
  /-- Fits at the end of the text, or before a line feed that ends it or, where lines count, a
  line. -/
  | stop (lines : Bool)
  | fullStop
  /-- Fits where a word starts or ends, or nowhere else. -/
  | edge (negated : Bool)
  /-- Fits where another pattern follows, or where it does not. -/
  | ahead (negated : Bool) (p : Pattern)
  /-- Fits where another pattern comes before, or where it does not. -/
  | behind (negated : Bool) (p : Pattern)
deriving Repr, Inhabited

namespace Pattern

def ofList : List Pattern → Pattern
  | [] => .nothing
  | [p] => p
  | p :: rest => .seq p (ofList rest)

/-- How many characters a pattern fits: at least and, if there is a limit, at most. -/
def width : Pattern → Nat × Option Nat
  | .char _ | .any _ | .set _ _ => (1, some 1)
  | .seq p q =>
    let (a, b) := width p
    let (c, d) := width q
    (a + c, b.bind fun x => d.map fun y => x + y)
  | .alt p q =>
    let (a, b) := width p
    let (c, d) := width q
    (min a c, b.bind fun x => d.map fun y => max x y)
  | .times least most p =>
    let (a, b) := width p
    (least * a, most.bind fun m => b.map fun x => m * x)
  | _ => (0, some 0)

def hasFixedWidth (p : Pattern) : Bool :=
  p.width.2 == some p.width.1

end Pattern

end CodeAtlas
