import CodeAtlas.Change.Definition
import CodeAtlas.Text.Split
import CodeAtlas.Text.Trim

/-!
# Unified diffs

A diff is read line by line. Header lines open the section of a file; hunk headers and changed lines
name symbols, which belong to the section that is open.
-/

namespace CodeAtlas.Change

inductive FileStatus where
  | modified
  | added
  | deleted
deriving DecidableEq, Repr, Inhabited

def FileStatus.word : FileStatus → String
  | .modified => "modified"
  | .added => "added"
  | .deleted => "deleted"

structure FileChange where
  path : String
  status : FileStatus
  symbols : List String := []
deriving DecidableEq, Repr, Inhabited

def FileChange.addSymbol (f : FileChange) (symbol : String) : FileChange :=
  if f.symbols.contains symbol then f else { f with symbols := f.symbols ++ [symbol] }

/-- The section of a file in a diff. It is reported once, and once more for every header inside it
that leaves the new side empty. -/
structure FileSection where
  change : FileChange
  emptySides : Nat := 0
deriving DecidableEq, Repr, Inhabited

/-- What has been read of a diff: the sections that are closed, the section that is open, and
whether the header read last leaves the old side empty. -/
structure DiffReading where
  closed : List FileSection := []
  current : Option FileSection := none
  oldSideEmpty : Bool := false

namespace DiffReading

def onCurrent (r : DiffReading) (f : FileChange → FileChange) : DiffReading :=
  { r with current := r.current.map fun s => { s with change := f s.change } }

def openSection (r : DiffReading) (path : String) : DiffReading :=
  let status := if r.oldSideEmpty then FileStatus.added else FileStatus.modified
  { r with closed := r.closed ++ r.current.toList, current := some ⟨⟨path, status, []⟩, 0⟩ }

end DiffReading

def isName (s : String) : Bool :=
  match name? s.toList with
  | some (_, rest) => rest.isEmpty
  | none => false

def hunkContext? (line : String) : Option String := do
  let rest ← exactly? "@@" line.toList
  let numbers := rest.takeWhile (· != '@')
  guard !numbers.isEmpty
  let context ← exactly? "@@" (rest.dropWhile (· != '@'))
  guard !context.isEmpty
  return Text.trim (String.ofList context)

def hunkNames (line : String) : List String :=
  match hunkContext? line with
  | some context =>
    let parts := (Text.splitBy (fun c => c == ':' || Text.isBlank c) context.toList).map
      fun part => Text.trimRightOf ['('] (String.ofList part)
    parts.filter isName
  | none => []

def newSidePath? (line : String) : Option String :=
  match exactly? "+++ b/" line.toList with
  | some (c :: rest) => some (String.ofList (c :: rest))
  | _ => none

def DiffReading.step (r : DiffReading) (line : String) : DiffReading :=
  let starts (part : String) : Bool := Text.startsWith line part
  if starts "--- " then { r with oldSideEmpty := starts "--- /dev/null" }
  else if starts "+++ " then
    if starts "+++ /dev/null" then
      { r with current := r.current.map fun s => { s with emptySides := s.emptySides + 1 } }
    else
      match newSidePath? line with
      | some path => r.openSection path
      | none => r
  else if starts "diff --git" then { r with oldSideEmpty := false }
  else if starts "deleted file" then r.onCurrent fun f => { f with status := .deleted }
  else if starts "new file" then r.onCurrent fun f => { f with status := .added }
  else if starts "@@" then r.onCurrent fun f => (hunkNames line).foldl FileChange.addSymbol f
  else if (starts "+" && !starts "+++") || (starts "-" && !starts "---") then
    match definedName? (Text.skip 1 line) with
    | some name => r.onCurrent fun f => f.addSymbol name
    | none => r
  else r

def FileSection.reports (s : FileSection) : List FileChange :=
  List.replicate (s.emptySides + 1) s.change

def filesOf (diff : String) : List FileChange :=
  let r := (Text.lines diff).foldl DiffReading.step {}
  (r.closed ++ r.current.toList).flatMap FileSection.reports

end CodeAtlas.Change
