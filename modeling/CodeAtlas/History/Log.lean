import CodeAtlas.Failure

/-!
# Logs of changes

Two systems are read. The log of the first is a list of records, each with its four fields on the
first line and the names of files below; the log of the second has one line for a change, with five
fields.
-/

namespace CodeAtlas.History

structure Commit where
  revision : String
  author : String
  date : Moment
  message : String
  files : List String := []
deriving Repr, Inhabited

def fieldMark : String := "---HAMMY_SEP---"

def recordMark : String := "---HAMMY_RECORD---"

def recordFormat : String :=
  recordMark ++ Text.join fieldMark ["%H", "%an", "%aI", "%s"]

def lineFormat : String :=
  Text.join fieldMark ["\x7bnode|short\x7d", "\x7bauthor|user\x7d", "\x7bdate|isodatesec\x7d",
    "\x7bdesc|firstline\x7d", "\x7bfiles\x7d"] ++ "\n"

def dateOf (text : String) : Except Failure Moment :=
  match Moment.parse text with
  | .ok m => .ok m
  | .error flaw => .error (.badDate text flaw)

def isBlankText (s : String) : Bool :=
  (Text.trim s).isEmpty

/-- Reads a record; one with too few fields is no change. -/
def parseRecord (record : String) : Except Failure (Option Commit) :=
  match Text.splitChar '\n' (Text.trim record) with
  | first :: below =>
    match Text.splitOn fieldMark first with
    | revision :: author :: date :: message :: _ => do
      let date ← dateOf date
      return some ⟨revision, author, date, message, below.filter fun l => !isBlankText l⟩
    | _ => .ok none
  | [] => .ok none

def parseRecords (log : String) : Except Failure (List Commit) := do
  let records := (Text.splitOn recordMark log).filter fun r => !isBlankText r
  return (← records.mapM parseRecord).filterMap id

/-- Reads a line with five fields; one with fewer is no change. A date that cannot be read is taken
to be `now`. -/
def parseLine (now : Moment) (line : String) : Option Commit :=
  match Text.splitOn fieldMark line with
  | revision :: author :: date :: message :: files :: _ =>
    let date := match Moment.parse (Text.trim date) with
      | .ok m => m
      | .error _ => now
    some ⟨revision, author, date, message, Text.words files⟩
  | _ => none

def parseLines (now : Moment) (log : String) : List Commit :=
  ((Text.splitChar '\n' (Text.trim log)).filter fun l => !isBlankText l).filterMap (parseLine now)

end CodeAtlas.History
