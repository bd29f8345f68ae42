import CodeAtlas.Data.Leading
import CodeAtlas.Graph.Node
import CodeAtlas.Project.Files

/-!
# Pieces of source text

The lines of a symbol, cut out of its file. A piece that is too long ends with a remark on how many
lines were left out.
-/

namespace CodeAtlas.Summary

def usualLines : Int := 40

/-- The lines from a first to a last one, counted from one; lines that are not there are left out,
and a last line below zero is counted from the end. -/
def lineRange (lines : List String) (first last : Int) : List String :=
  let start := (first - 1).toNat
  let stop := min (lines.length : Int) last
  (lines.take (if 0 ≤ stop then stop else lines.length + stop).toNat).drop start

def shorten (most : Int) (piece : List String) : List String :=
  if (piece.length : Int) ≤ most then piece
  else leading most piece ++ ["... (" ++ toString (piece.length - most) ++ " more lines)"]

def snippet (files : Files) (root : Path) (most : Int) (n : Node) : String :=
  match files.text? (root.child n.loc.file) with
  | none => ""
  | some text => Text.join "\n" (shorten most (lineRange (Text.lines text) n.loc.first n.loc.last))

end CodeAtlas.Summary
