import CodeAtlas.Text.Classes

/-!
# Trimming, cutting and padding

`trimBy p` removes the characters of a class from both ends. `cut` keeps a number of leading
characters; the two pads fill a text up to a width and never shorten it.
-/

namespace CodeAtlas.Text

def dropLeading (p : Char → Bool) (cs : List Char) : List Char :=
  cs.dropWhile p

def dropTrailing (p : Char → Bool) (cs : List Char) : List Char :=
  (cs.reverse.dropWhile p).reverse

def trimList (p : Char → Bool) (cs : List Char) : List Char :=
  dropTrailing p (dropLeading p cs)

def trimBy (p : Char → Bool) (s : String) : String :=
  String.ofList (trimList p s.toList)

def trim (s : String) : String :=
  trimBy isBlank s

def trimRight (s : String) : String :=
  String.ofList (dropTrailing isBlank s.toList)

def trimLeftOf (chars : List Char) (s : String) : String :=
  String.ofList (dropLeading chars.contains s.toList)

def trimRightOf (chars : List Char) (s : String) : String :=
  String.ofList (dropTrailing chars.contains s.toList)

def trimOf (chars : List Char) (s : String) : String :=
  trimBy chars.contains s

def cut (n : Nat) (s : String) : String :=
  String.ofList (s.toList.take n)

def skip (n : Nat) (s : String) : String :=
  String.ofList (s.toList.drop n)

def padRight (width : Nat) (s : String) : String :=
  s ++ String.ofList (List.replicate (width - s.length) ' ')

def padLeft (width : Nat) (s : String) (fill : Char := ' ') : String :=
  String.ofList (List.replicate (width - s.length) fill) ++ s

end CodeAtlas.Text
