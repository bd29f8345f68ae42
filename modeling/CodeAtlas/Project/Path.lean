import CodeAtlas.Text.Case
import CodeAtlas.Text.Split

/-!
# Paths

A path is a list of names, counted from the root of the file system or from some directory. Empty
names and single dots in a written path mean nothing; double dots are kept until the path is
resolved.
-/

namespace CodeAtlas

structure Path where
  absolute : Bool := false
  parts : List String := []
deriving DecidableEq, Repr, Inhabited

namespace Path

def ofText (s : String) : Path :=
  ⟨Text.startsWith s "/", (Text.splitChar '/' s).filter fun p => !(p.isEmpty || p == ".")⟩

def toText (p : Path) : String :=
  if p.absolute then "/" ++ Text.join "/" p.parts
  else if p.parts.isEmpty then "."
  else Text.join "/" p.parts

def append (base p : Path) : Path :=
  if p.absolute then p else { base with parts := base.parts ++ p.parts }

def child (base : Path) (text : String) : Path :=
  base.append (ofText text)

def name (p : Path) : String :=
  p.parts.getLast?.getD ""

def parent (p : Path) : Path :=
  { p with parts := p.parts.dropLast }

/-- The suffix of a name: its last dot and what follows, unless the dot is its first or its last
character. -/
def suffixOf (name : List Char) : List Char :=
  let after := name.reverse.takeWhile (· != '.')
  let before := (name.reverse.dropWhile (· != '.')).drop 1
  if after.isEmpty || before.isEmpty || after.length == name.length then []
  else '.' :: after.reverse

def suffix (p : Path) : String :=
  String.ofList (suffixOf p.name.toList)

def relativeTo? (p base : Path) : Option Path :=
  if p.absolute == base.absolute && base.parts.isPrefixOf p.parts then
    some ⟨false, p.parts.drop base.parts.length⟩
  else none

end Path

end CodeAtlas
