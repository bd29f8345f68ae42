import CodeAtlas.Ignore.Pattern
import CodeAtlas.Project.Config

/-!
# Layers of ignore patterns

The patterns of a project come in layers, each after the other: fixed ones, those of three files in
the project's directory, and those of the settings.
-/

namespace CodeAtlas.Ignore

def defaults : List String :=
  [".git/", ".hg/", "__pycache__/", "*.pyc", "node_modules/", "vendor/", ".vendor/",
    "bower_components/", "dist/", "build/", ".cache/", ".tox/", ".venv/", "venv/", ".env/",
      "*.min.js",
    "*.min.css", "*.map", "*.lock", "package-lock.json", "composer.lock", ".DS_Store", "Thumbs.db"]

def patternLines (text : String) : List String :=
  ((Text.lines text).map Text.trim).filter fun l => !(l.isEmpty || Text.startsWith l "#")

/-- The patterns of a file whose lines are globs only after a line that says so. `globs` tells
whether such a line came last. -/
def globLinesFrom (globs : Bool) : List String → List String
  | [] => []
  | l :: rest =>
    if Text.startsWith l "syntax:" then globLinesFrom (Text.trim (Text.skip 7 l) == "glob") rest
    else if globs then l :: globLinesFrom globs rest
    else globLinesFrom globs rest

def globLines (text : String) : List String :=
  globLinesFrom false (patternLines text)

def layer (files : Files) (enabled : Bool) (p : Path) (read : String → List String) :
    Except Failure (List String) := do
  if !enabled then return []
  if ← files.has p then (files.read p).map read else return []

structure Rules where
  root : Path
  patterns : List Pattern

def Flaw.failure : Flaw → Failure
  | .invalid => .badIgnorePattern
  | .badRange => .badPattern

def patternTexts (files : Files) (root : Path) (settings : IgnoreSettings) :
    Except Failure (List String) := do
  let git ← layer files settings.useGitignore (root.child ".gitignore") patternLines
  let hg ← layer files settings.useHgignore (root.child ".hgignore") globLines
  let own ← layer files settings.useOwnIgnore (root.child ".hammyignore") patternLines
  return defaults ++ git ++ hg ++ own ++ settings.extraPatterns

def Rules.load (files : Files) (projectRoot : Path) (settings : IgnoreSettings) :
    Except Failure Rules := do
  let root := files.resolve projectRoot
  let texts ← patternTexts files root settings
  match parseAll texts with
  | .ok patterns => return ⟨root, patterns⟩
  | .error flaw => .error flaw.failure

/-- The form in which a path is matched: a leading slash or a leading dot and slash is dropped. -/
def matchedForm (s : String) : String :=
  match s.toList with
  | '/' :: rest => String.ofList rest
  | '.' :: '/' :: rest => String.ofList rest
  | _ => s

/-- Whether a path in the project is excluded; a directory also if it is excluded with a slash after
it. -/
def Rules.excludesRelative (r : Rules) (rel : Path) (isDir : Bool) : Bool :=
  excludes r.patterns (matchedForm rel.toText) ||
    (isDir && excludes r.patterns (matchedForm (rel.toText ++ "/")))

/-- Whether a path is ignored. For an absolute path the files tell whether it is a directory; one
that is not in the project is not ignored. -/
def Rules.ignores (r : Rules) (files : Files) (p : Path) (isDir : Bool := false) : Bool :=
  if p.absolute then
    match p.relativeTo? r.root with
    | some rel => r.excludesRelative rel (isDir || files.isDir p)
    | none => false
  else r.excludesRelative p isDir

/-- Asks whether a path is ignored. This fails where the files must tell whether it is a directory
and the path cannot be looked at. -/
def Rules.ask (r : Rules) (files : Files) (p : Path) (isDir : Bool := false) :
    Except Failure Bool := do
  if p.absolute && (p.relativeTo? r.root).isSome && !isDir then files.look p
  return r.ignores files p isDir

end CodeAtlas.Ignore
