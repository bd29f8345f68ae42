import CodeAtlas.Failure
import CodeAtlas.Json.Expect

/-!
# Who wrote which line

The first system writes a header in front of every line, and the author of a revision where the
revision first occurs; the second writes author and revision at the start of every line.
-/

namespace CodeAtlas.History

structure BlameLine where
  number : Int
  revision : String
  author : String
  content : String
deriving DecidableEq, Repr, Inhabited

/-- What has been read: the revision, author and line number that hold for the next line, and the
lines so far. -/
structure BlameReading where
  revision : String := ""
  author : String := ""
  number : Int := 0
  lines : List BlameLine := []

def revisionLength : Nat := 40

/-- The first characters of a revision, which are enough to tell it from others. -/
def shortRevision (revision : String) : String :=
  Text.cut 8 revision

def blameHeader? (line : String) : Option (String × String) :=
  match Text.words line with
  | revision :: _ :: number :: _ =>
    if revision.length == revisionLength then some (revision, number) else none
  | _ => none

def BlameReading.step (r : BlameReading) (line : String) : Except Failure BlameReading :=
  match blameHeader? line with
  | some (revision, number) =>
    match Json.intOfText? number with
    | some n => .ok { r with revision := revision, number := n }
    | none => .error (.badNumber number)
  | none =>
    if Text.startsWith line "author " then .ok { r with author := Text.skip 7 line }
    else if Text.startsWith line "\t" then
      .ok { r with lines := r.lines ++
        [⟨r.number, shortRevision r.revision, r.author, Text.skip 1 line⟩] }
    else .ok r

def parseBlame (text : String) : Except Failure (List BlameLine) := do
  let lines := (Text.splitChar '\n' text).filter fun l => !l.isEmpty
  return (← lines.foldlM BlameReading.step {}).lines

def splitLastBlank? (s : String) : Option (String × String) :=
  let cs := s.toList.reverse
  match cs.dropWhile (· != ' ') with
  | _ :: before =>
    some (String.ofList before.reverse, String.ofList (cs.takeWhile (· != ' ')).reverse)
  | [] => none

def parseNoteLine (line : String) (number : Nat) : Option BlameLine :=
  match line.toList.dropWhile (· != ':') with
  | _ :: content =>
    (splitLastBlank? (Text.trim (String.ofList (line.toList.takeWhile (· != ':'))))).map
      fun (author, revision) =>
        ⟨number, revision, author, String.ofList (content.dropWhile Text.isBlank)⟩
  | [] => none

/-- Reads what the second system writes; lines are counted from one, and skipped lines count. -/
def parseNotes (text : String) : List BlameLine :=
  ((Text.splitChar '\n' text).zipIdx 1).filterMap fun (line, n) => parseNoteLine line n

end CodeAtlas.History
