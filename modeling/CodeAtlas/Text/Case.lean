import CodeAtlas.Text.Classes

/-!
# Upper and lower case

`lower` and `upper` map whole texts and may change their length. `sameLetter` is the comparison of
two characters with case ignored, which looks at one character on each side.
-/

namespace CodeAtlas.Text

def shiftIn (runs : List (Nat × Nat × Nat × Int)) (n : Nat) : Int :=
  match runs.find? fun r => r.1 ≤ n && n ≤ r.2.1 && (n - r.1) % r.2.2.1 == 0 with
  | some r => r.2.2.2
  | none => 0

def lowerChar (c : Char) : Char :=
  if c.toNat < 128 then c.toLower else Char.ofNat (c.toNat + shiftIn lowerRuns c.toNat).toNat

def upperChar (c : Char) : List Char :=
  if c.toNat < 128 then [c.toUpper]
  else
    match upperExpansions.lookup c.toNat with
    | some ns => ns.map Char.ofNat
    | none => [Char.ofNat (c.toNat + shiftIn upperRuns c.toNat).toNat]

/-- Whether the nearest character that is not passed over is a cased letter. -/
def nextCased : List Char → Bool
  | [] => false
  | c :: rest =>
    if inRanges caseIgnorableRanges c.toNat then nextCased rest else inRanges casedRanges c.toNat

/-- Lower-case form of a text whose already mapped part, reversed, is `before`. A capital sigma
becomes the final form when it ends a word; the dotted capital I keeps its dot as a combining
mark. -/
def lowerAfter (before : List Char) : List Char → List Char
  | [] => []
  | c :: rest =>
    let low :=
      if c.toNat = 0x3A3 then
        if nextCased before && !nextCased rest then [Char.ofNat 0x3C2] else [Char.ofNat 0x3C3]
      else if c.toNat = 0x130 then ['i', Char.ofNat 0x307]
      else [lowerChar c]
    low ++ lowerAfter (c :: before) rest

def lowerChars (cs : List Char) : List Char :=
  lowerAfter [] cs

def lower (s : String) : String :=
  String.ofList (lowerChars s.toList)

def upper (s : String) : String :=
  String.ofList (s.toList.flatMap upperChar)

def sameLetter (c d : Char) : Bool :=
  let c := lowerChar c
  let d := lowerChar d
  c == d ||
    ((128 ≤ c.toNat || 128 ≤ d.toNat) &&
      ((sharedLetters.lookup c.toNat).getD []).contains d.toNat)

end CodeAtlas.Text
