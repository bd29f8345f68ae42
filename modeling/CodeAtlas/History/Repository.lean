import CodeAtlas.History.Blame
import CodeAtlas.History.Log
import CodeAtlas.History.Shell
import CodeAtlas.Project.Files

/-!
# Repositories

A repository is known by a directory in the project's root. It answers questions about the history
of the project by running commands.
-/

namespace CodeAtlas.History

inductive System where
  | git
  | mercurial
deriving DecidableEq, Repr, Inhabited

def System.program : System → String
  | .git => "git"
  | .mercurial => "hg"

def detect (files : Files) (root : Path) : Except Failure System := do
  if ← files.has (root.child ".git") then return .git
  else if ← files.has (root.child ".hg") then return .mercurial
  else .error (.noRepository root.toText)

def usualLimit : Int := 50

def log (system : System) (now : Moment) (path : String := "") (limit : Int := usualLimit) :
    ShellM (List Commit) := do
  match system with
  | .git =>
    let output ← run (["git", "log", "--format=" ++ recordFormat, "-n" ++ toString limit,
      "--name-only"] ++ if path.isEmpty then [] else ["--", path])
    if isBlankText output then return []
    match parseRecords output with
    | .ok commits => return commits
    | .error f => throw f
  | .mercurial =>
    let output ← run (["hg", "log", "--template=" ++ lineFormat, "--limit=" ++ toString limit] ++
      if path.isEmpty then [] else [path])
    if isBlankText output then return []
    return parseLines now output

def blame (system : System) (path : String) : ShellM (List BlameLine) := do
  match system with
  | .git =>
    let output ← run ["git", "blame", "--porcelain", path]
    if isBlankText output then return []
    match parseBlame output with
    | .ok lines => return lines
    | .error f => throw f
  | .mercurial =>
    let output ← run ["hg", "annotate", "-u", "-c", path]
    if isBlankText output then return []
    return parseNotes output

def countFiles (cutoff : Moment) : List Commit → OrderedMap String Nat →
    Except Failure (OrderedMap String Nat)
  | [], counts => .ok counts
  | c :: rest, counts =>
    match c.date.before? cutoff with
    | none => .error .mixedDates
    | some true => countFiles cutoff rest counts
    | some false => countFiles cutoff rest (c.files.foldl (fun m f => m.alter f 0 (· + 1)) counts)

def byCount (counts : OrderedMap String Nat) : List (String × Nat) :=
  counts.entries.mergeSort fun a b => b.2 ≤ a.2

def churnLimit : Int := 10000

def churn (system : System) (now : Moment) (path : String := "") (windowDays : Int := 90) :
    ShellM (List (String × Nat)) := do
  match now.addDays? (-windowDays) with
  | none => throw .dateOutOfRange
  | some cutoff =>
    let commits ← log system now path churnLimit
    match countFiles cutoff commits {} with
    | .ok counts => return byCount counts
    | .error f => throw f

def diff (system : System) (old new : String) : ShellM String :=
  match system with
  | .git => run ["git", "diff", old, new]
  | .mercurial => run ["hg", "diff", "-r", old, "-r", new]

def diffWorkingTree (system : System) (base : String := "HEAD") : ShellM String :=
  match system with
  | .git => run ["git", "diff", base]
  | .mercurial => run ["hg", "diff", "-r", base]

end CodeAtlas.History
