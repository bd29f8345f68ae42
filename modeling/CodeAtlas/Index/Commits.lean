import CodeAtlas.Host

/-!
# Indexing commits
-/

namespace CodeAtlas.Index

structure CommitReport where
  processed : Nat := 0
  indexed : Nat := 0

def commitRecord (c : History.Commit) : Json :=
  .obj [("revision", .str c.revision), ("author", .str c.author), ("date", .str c.date.toText),
    ("message", .str c.message), ("files_changed", .texts c.files)]

def buildCommits (config : Config) (catalog? : Option Vector.Catalog) : HostM CommitReport := do
  let h ← get
  let root := h.files.resolve (Path.ofText config.project.root)
  let system ← History.detect h.files root
  let commits ← Host.onShell (History.log system h.now "" config.history.maxCommits)
  if commits.isEmpty then return {}
  let c ← Host.catalogOr catalog? config
  let indexed ← Host.onVectors (do c.ensureAll; c.keepCommits (commits.map commitRecord))
  return ⟨commits.length, indexed⟩

end CodeAtlas.Index
