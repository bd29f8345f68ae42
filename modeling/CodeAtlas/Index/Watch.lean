import CodeAtlas.Index.Update

/-!
# Watching a project

Files that are reported as changed are put off until nothing was heard of them for a while, and are
then put into the index together.
-/

namespace CodeAtlas.Index

/-- Files that were put off, each with the time when it was last reported. -/
abbrev Pending (Time : Type) := OrderedMap Path Time

namespace Pending

variable {Time : Type}

def note (p : Pending Time) (now : Time) (paths : List Path) : Pending Time :=
  paths.foldl (fun p path => p.insert path now) p

def isQuiet [Sub Time] [LE Time] [DecidableLE Time] (now wait heard : Time) : Bool :=
  wait ≤ now - heard

def ready [Sub Time] [LE Time] [DecidableLE Time] (p : Pending Time) (now wait : Time) :
    List Path :=
  (p.entries.filter fun e => isQuiet now wait e.2).map (·.1)

def waiting [Sub Time] [LE Time] [DecidableLE Time] (p : Pending Time) (now wait : Time) :
    Pending Time :=
  ⟨p.entries.filter fun e => !isQuiet now wait e.2⟩

end Pending

def watchedSuffixes : List String :=
  [".php", ".js", ".jsx", ".ts", ".tsx", ".py", ".go", ".mjs", ".cjs"]

def sourceSuffixes : List String :=
  [".php", ".js", ".jsx", ".ts", ".tsx", ".py", ".go"]

def isWatched (rules : Ignore.Rules) (files : Files) (root p : Path) : Bool :=
  (p.relativeTo? root).isSome && !rules.ignores files p && watchedSuffixes.contains p.suffix

def watched (rules : Ignore.Rules) (files : Files) (root : Path) (reported : List Path) :
    Except Failure (List Path) :=
  (distinct reported).filterM fun p => do
    if (p.relativeTo? root).isSome then discard (rules.ask files p)
    return isWatched rules files root p

def isSource (names : List String) (g : Source.Grammar) (files : Files) (p : Path) :
    Except Failure Bool := do
  let parsed ← (← Readers.ofNames names).parseFile g files p
  return parsed.isSome || sourceSuffixes.contains p.suffix

structure Watcher where
  root : Path
  config : Config
  catalog : Option Vector.Catalog := none
  wait : Float := 1.5
  rules : Ignore.Rules

/-- Takes in the files that are reported at a time, and updates the index with those that were quiet
for long enough. Gives what changed, if anything was due. -/
def Watcher.step (w : Watcher) (pending : Pending Float) (now : Float) (reported : List Path) :
    UpdateM (Pending Float × Option Update) := do
  let pending := pending.note now reported
  let ready := pending.ready now w.wait
  if ready.isEmpty then return (pending, none)
  let u ← update w.root w.config w.catalog ready
  return (pending.waiting now w.wait, some u)

end CodeAtlas.Index
