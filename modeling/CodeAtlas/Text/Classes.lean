import CodeAtlas.Text.CodePoints

/-!
# Classes of characters

The classes that the text rules of the library speak of: blanks, line ends, word characters, decimal
digits and printable characters. Each class covers the whole of Unicode; the ASCII part is decided
without a table.
-/

namespace CodeAtlas.Text

def inRanges (ranges : List (Nat × Nat)) (n : Nat) : Bool :=
  ranges.any fun r => r.1 ≤ n && n ≤ r.2

/-- Blank characters: the ones that trimming removes and that separate words. -/
def isBlank (c : Char) : Bool :=
  inRanges
    [(9, 13), (28, 32), (133, 133), (160, 160), (5760, 5760), (8192, 8202), (8232, 8233),
     (8239, 8239), (8287, 8287), (12288, 12288)] c.toNat

/-- Characters that end a line. A carriage return directly before a line feed ends the same line as
the line feed does. -/
def isLineEnd (c : Char) : Bool :=
  inRanges [(10, 13), (28, 30), (133, 133), (8232, 8233)] c.toNat

def isWord (c : Char) : Bool :=
  if c.toNat < 128 then c.isAlphanum || c == '_' else inRanges wordRanges c.toNat

def isDecimal (c : Char) : Bool :=
  if c.toNat < 128 then c.isDigit else inRanges decimalRanges c.toNat

def isPrintable (c : Char) : Bool :=
  if c.toNat < 128 then 32 ≤ c.toNat && c.toNat < 127 else inRanges printableRanges c.toNat

end CodeAtlas.Text
