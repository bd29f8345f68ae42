import CodeAtlas.Failure
import CodeAtlas.Project.Path

/-!
# Files

The files of a machine are a tree of directories, text files, symbolic links, and entries that are
closed to the reader. Reading follows links; a chain of links that is too long, or that leads
nowhere, leads to no file. A path that meets something closed, or a name that is too long, cannot be
looked at.
-/

namespace CodeAtlas

inductive Closed where
  /-- A file of some size that cannot be read. -/
  | file (size : Nat)
  /-- A file that cannot even be looked at. -/
  | hidden
deriving Inhabited, DecidableEq

inductive Entry where
  | file (content : String)
  | dir (children : List (String × Entry))
  /-- A link to a path, counted from the directory that holds the link. -/
  | link (target : String)
  | closed (kind : Closed)
deriving Inhabited

namespace Entry

def child? (e : Entry) (name : String) : Option Entry :=
  match e with
  | .dir children => children.lookup name
  | _ => none

/-- The entry at a list of names; links are not followed. -/
def at? (e : Entry) : List String → Option Entry
  | [] => some e
  | name :: rest => (e.child? name).bind fun c => c.at? rest

def isDir : Entry → Bool
  | .dir _ => true
  | _ => false

def isClosed : Entry → Bool
  | .closed _ => true
  | _ => false

def size? : Entry → Option Nat
  | .file content => some content.utf8ByteSize
  | .closed (.file size) => some size
  | _ => none

def putChild (name : String) (e : Entry) : List (String × Entry) → List (String × Entry)
  | [] => [(name, e)]
  | (n, old) :: rest => if n == name then (n, e) :: rest else (n, old) :: putChild name e rest

def put (new : Entry) : (names : List String) → Entry → Entry
  | [], _ => new
  | name :: rest, e =>
    let children := match e with
      | .dir children => children
      | _ => []
    let below := (children.lookup name).getD (.dir [])
    .dir (putChild name (put new rest below) children)

def erase : (names : List String) → Entry → Entry
  | [], e => e
  | [name], .dir children => .dir (children.filter fun c => c.1 != name)
  | name :: rest, .dir children =>
    match children.lookup name with
    | some c => .dir (putChild name (erase rest c) children)
    | none => .dir children
  | _ :: _, e => e

end Entry

structure Files where
  root : Entry := .dir []
deriving Inhabited

namespace Files

def mostLinks : Nat := 40

/-- Follows names from a directory, given in reverse, up to the entry that they lead to. Gives where
that entry really is. With `fresh`, the last name may be one that its directory does not have yet.
At a link, `jump` goes on from a directory along names. -/
def followNames (files : Files) (fresh : Bool) (jump : List String → List String →
    Option (List String)) (place : List String) : (names : List String) → Option (List String)
  | [] => some place
  | name :: rest =>
    if name == ".." then followNames files fresh jump place.tail rest
    else
      match files.root.at? (place.reverse ++ [name]) with
      | none => if fresh && rest.isEmpty then some (name :: place) else none
      | some (.link target) =>
        let t := Path.ofText target
        jump (if t.absolute then [] else place) (t.parts ++ rest)
      | some (.dir _) => followNames files fresh jump (name :: place) rest
      | some _ => if rest.isEmpty then some (name :: place) else none

def follow? (files : Files) (fresh : Bool) :
    (links : Nat) → (place names : List String) → Option (List String)
  | 0 => files.followNames fresh fun _ _ => none
  | n + 1 => files.followNames fresh (files.follow? fresh n)

def place? (files : Files) (p : Path) : Option (List String) :=
  files.follow? false mostLinks [] p.parts

def entry? (files : Files) (p : Path) : Option Entry :=
  (files.place? p).bind fun place => files.root.at? place.reverse

def holds (files : Files) (p : Path) : Bool :=
  (files.entry? p).isSome

def isDir (files : Files) (p : Path) : Bool :=
  (files.entry? p).any Entry.isDir

def content? (files : Files) (p : Path) : Option String :=
  match files.entry? p with
  | some (.file content) => some content
  | _ => none

def text? (files : Files) (p : Path) : Option String :=
  (files.content? p).map Text.unixLines

def size? (files : Files) (p : Path) : Option Nat :=
  (files.entry? p).bind Entry.size?

def longestName : Nat := 255

/-- Follows the names of a path up to where they are refused, and tells why. -/
def refusalNames (files : Files) (p : Path) (jump : List String → List String → Option Failure)
    (place : List String) : (names : List String) → Option Failure
  | [] => none
  | name :: rest =>
    if name == ".." then refusalNames files p jump place.tail rest
    else
      match files.root.at? (place.reverse ++ [name]) with
      | none => if longestName < name.utf8ByteSize then some (.nameTooLong p.toText) else none
      | some (.link target) =>
        let t := Path.ofText target
        jump (if t.absolute then [] else place) (t.parts ++ rest)
      | some (.dir _) => refusalNames files p jump (name :: place) rest
      | some (.closed .hidden) => some (.denied p.toText)
      | some _ => none

def refusal? (files : Files) (p : Path) :
    (links : Nat) → (place names : List String) → Option Failure
  | 0 => files.refusalNames p fun _ _ => none
  | n + 1 => files.refusalNames p (files.refusal? p n)

/-- Why a path cannot be looked at, if it cannot. -/
def fault? (files : Files) (p : Path) : Option Failure :=
  files.refusal? p mostLinks [] p.parts

def look (files : Files) (p : Path) : Except Failure Unit :=
  match files.fault? p with
  | some f => .error f
  | none => .ok ()

/-- Whether there is something at a path; fails where it cannot be looked at. -/
def has (files : Files) (p : Path) : Except Failure Bool := do
  files.look p
  return files.holds p

def unreadable (files : Files) (p : Path) : Failure :=
  (files.fault? p).getD <|
    match files.entry? p with
    | some (.closed _) => .denied p.toText
    | some (.dir _) => .isDirectory p.toText
    | _ => .missingFile p.toText

def readContent (files : Files) (p : Path) : Except Failure String :=
  match files.content? p with
  | some content => .ok content
  | none => .error (files.unreadable p)

def read (files : Files) (p : Path) : Except Failure String :=
  (files.readContent p).map Text.unixLines

/-- Follows names as far as they lead and keeps the others; a double dot goes up. At a link, `jump?`
goes on; without it, the link is kept like a name that leads nowhere. -/
def realNames (files : Files) (jump? : Option (List String → List String → List String))
    (place : List String) : (names : List String) → List String
  | [] => place
  | name :: rest =>
    if name == ".." then realNames files jump? place.tail rest
    else
      match files.root.at? (place.reverse ++ [name]), jump? with
      | some (.link target), some jump =>
        let t := Path.ofText target
        jump (if t.absolute then [] else place) (t.parts ++ rest)
      | _, _ => realNames files jump? (name :: place) rest

def realPlace (files : Files) : (links : Nat) → (place names : List String) → List String
  | 0 => files.realNames none
  | n + 1 => files.realNames (some (files.realPlace n))

/-- An absolute path without links and double dots, as far as it leads. -/
def resolve (files : Files) (p : Path) : Path :=
  ⟨true, (files.realPlace mostLinks [] p.parts).reverse⟩

def putAt (files : Files) (place : List String) (e : Entry) : Files :=
  ⟨e.put place.reverse files.root⟩

def write (files : Files) (p : Path) (content : String) : Files :=
  files.putAt (files.realPlace mostLinks [] p.parts) (.file content)

/-- Removes the entry of a path; a link is removed itself. -/
def remove (files : Files) (p : Path) : Files :=
  let place := files.realPlace mostLinks [] p.parent.parts
  ⟨Entry.erase (place.reverse ++ [p.name]) files.root⟩

/-- Lays a directory down unless something is there; directories on the way are made. -/
def makeDir (files : Files) (p : Path) : Files :=
  if files.holds p then files
  else files.putAt (files.realPlace mostLinks [] p.parts) (.dir [])

end Files

end CodeAtlas
