import CodeAtlas.Extract.Languages
import CodeAtlas.Ignore.Layers

/-!
# Walking through a project

The files of a project in a fixed order: in every directory first its files by name, then what its
subdirectories hold, these by name. Directories that are ignored, or that are links, are not
entered.
-/

namespace CodeAtlas

structure FileEntry where
  path : Path
  language : Option Language
  size : Nat

@[irreducible] def languageOf? (p : Path) : Option Language :=
  Language.ofSuffix? (Text.lower p.suffix)

def byName {α : Type} (named : List (String × α)) : List (String × α) :=
  named.mergeSort fun a b => !(b.1 < a.1)

structure WalkFilter where
  rules : Ignore.Rules
  maxSizeKb : Int := 500
  /-- The names of the languages that are wanted; all files if there is no such list. -/
  languages : Option (List String) := none

def WalkFilter.file? (w : WalkFilter) (files : Files) (p : Path) : Option FileEntry :=
  if w.rules.ignores files p then none
  else
    (files.size? p).bind fun size =>
      let language := languageOf? p
      let wanted := match w.languages with
        | some names => (language.map (·.name)).any names.contains
        | none => true
      if (size : Int) ≤ w.maxSizeKb * 1024 && wanted then some ⟨p, language, size⟩ else none

/-- A stop of a walk: a file that is found, or something that ends the walk. -/
abbrev Stop := Except Failure FileEntry

def WalkFilter.stop? (w : WalkFilter) (files : Files) (p : Path) : Option Stop :=
  match w.rules.ask files p with
  | .error f => some (.error f)
  | .ok _ => (w.file? files p).map .ok

def leadsToDir (files : Files) (p : Path) (e : Entry) : Bool :=
  match e with
  | .link _ => files.isDir p
  | e => e.isDir

/-! ## The order of a walk

A walk visits everything in a directory that leads to no directory, and then goes on with the
directories. What it makes of a path is up to `visit`. -/

section

variable {α : Type}

def visitAll (visit : Path → Option α) (files : Files) (p : Path)
    (entries : List (String × Entry)) : List α :=
  (byName entries).filterMap fun (name, e) =>
    let q := p.child name
    if leadsToDir files q e then none else visit q

mutual

def walkWith (visit : Path → Option α) (rules : Ignore.Rules) (files : Files) :
    Path → Entry → List α
  | p, .dir entries =>
    visitAll visit files p entries ++ (byName (walkEach visit rules files p entries)).flatMap (·.2)
  | _, _ => []

def walkEach (visit : Path → Option α) (rules : Ignore.Rules) (files : Files) :
    Path → List (String × Entry) → List (String × List α)
  | _, [] => []
  | p, (name, e) :: rest =>
    let q := p.child name
    let found :=
      if e.isDir && !rules.ignores files q true then walkWith visit rules files q e else []
    (name, found) :: walkEach visit rules files p rest

end

end

def stops (w : WalkFilter) (files : Files) (root : Path) : List Stop :=
  let root := files.resolve root
  match files.entry? root with
  | some e => walkWith (w.stop? files) w.rules files root e
  | none => []

def walkProject (w : WalkFilter) (files : Files) (root : Path) : List FileEntry :=
  (stops w files root).filterMap Except.toOption

def walk (w : WalkFilter) (files : Files) (root : Path) : Except Failure (List FileEntry) :=
  (stops w files root).mapM id

end CodeAtlas
