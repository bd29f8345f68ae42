import CodeAtlas.Project.Files

/-!
# Storing files

A project stores a file in one of its directories. The directory is made if it is not there, but no
other one is; a link is followed, also one that leads to a file which is not there yet.
-/

namespace CodeAtlas.Files

def directory? (files : Files) (p : Path) : Option (List String) :=
  (files.place? p).filter fun place => (files.root.at? place.reverse).any Entry.isDir

/-- Makes a directory in another one, unless it is there. Whatever else has its name is in the way,
be it a link that leads nowhere. -/
def ensureDir (files : Files) (p : Path) : Except Failure Files := do
  files.look p
  if files.isDir p then return files
  match files.directory? p.parent with
  | some place =>
    if (files.root.at? (place.reverse ++ [p.name])).isSome then .error (.inTheWay p.toText)
    else return files.putAt (p.name :: place) (.dir [])
  | none => .error (.missingFile p.toText)

/-- Where a file that is written at a path comes to stand: its directory must be there, the file
need not, and nothing closed may be in its place. -/
def target? (files : Files) (p : Path) : Option (List String) :=
  if (files.fault? p).isSome then none
  else
    (files.follow? true mostLinks [] p.parts).filter fun place =>
      !(files.root.at? place.reverse).any Entry.isClosed

def writeText (files : Files) (p : Path) (content : String) : Except Failure Files :=
  match files.target? p with
  | some place =>
    if (files.root.at? place.reverse).any Entry.isDir then .error (.isDirectory p.toText)
    else .ok (files.putAt place (.file content))
  | none => .error (files.unreadable p)

end CodeAtlas.Files
