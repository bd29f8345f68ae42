import CodeAtlas.Console.Output
import CodeAtlas.Index.Watch

/-!
# Watching a project from the console
-/

namespace CodeAtlas.Console

structure Tick where
  time : Float
  change : Host → Host := id
  reported : List Path := []
  interrupted : Bool := false
  last : Bool := false

/-- The collections of a project. A failure is reported; collections that were opened but could not
be made are used nevertheless. -/
def openForWatch (config : Config) : ConsoleM (Option Vector.Catalog) := do
  let report (f : Failure) : ConsoleM Unit :=
    say ("[yellow]Qdrant not available (" ++ f.message ++
      ") — watching without embeddings.[/yellow]")
  match ← attempt (Host.openCatalog config.store config.project.name) with
  | .error f =>
    report f
    return none
  | .ok c =>
    if let .error f ← attempt (Host.onVectors c.ensureAll) then report f
    return some c

def graphForWatch (root : Path) (config : Config) (catalog? : Option Vector.Catalog) :
    ConsoleM Index.Graph := do
  match ← Index.Cache.load (← getHost).files root with
  | some g =>
    say ("  [green]Ready.[/green] Loaded " ++ toString g.nodes.length ++ " symbols from cache.")
    return g
  | none =>
    say "[dim]No cache found — performing initial index...[/dim]"
    put (.status "[bold blue]Indexing...")
    let b ← onHost (Index.build config catalog? ⟨catalog?.isSome, false⟩)
    let r := b.report
    say ("  [green]Ready.[/green] " ++ toString r.filesProcessed ++ " files | " ++
      toString r.nodesExtracted ++ " symbols | " ++ toString r.edgesExtracted ++ " edges")
    if catalog?.isSome then say ("  Qdrant: " ++ toString r.nodesIndexed ++ " embeddings stored")
    return b.graph

def updateLine (hasStore : Bool) (number : Nat) (u : Index.Update) : String :=
  "  [" ++ Text.padLeft 4 (toString number) '0' ++ "] " ++ u.word ++ ": [green]+" ++
    toString u.added ++
    "[/green] / [red]-" ++ toString u.removed ++ "[/red] symbols" ++
      (if hasStore then " + Qdrant" else "") ++
    (if u.errors == 0 then "" else "  [yellow]" ++ toString u.errors ++ " error(s)[/yellow]")

/-- Keeps the graph of a project up to date from look to look, until the watch ends. `number` counts
the updates. -/
def follow (w : Index.Watcher) :
    List Tick → (number : Nat) → Index.Pending Float → Index.Tracked → ConsoleM Unit
  | [], _, _, _ => pure ()
  | t :: rest, number, pending, tracked => do
    modify fun c => { c with host := t.change c.host }
    if t.interrupted then return
    let c ← get
    let reported ← Index.watched w.rules c.host.files w.root t.reported
    let (r, tracked, h) := (w.step pending t.time reported).run.run (tracked, c.host)
    set { c with host := h }
    match r with
    | .error f => throw f
    | .ok (pending, u?) =>
      if let some u := u? then say (updateLine w.catalog.isSome (number + 1) u)
      if t.last then return
      follow w rest (number + u?.toList.length) pending tracked

def watchGraph (root : Path) (config : Config) (catalog? : Option Vector.Catalog) (wait : Float)
    (graph : Index.Graph) (ticks : List Tick) : ConsoleM Unit := do
  let rules ← Ignore.Rules.load (← getHost).files root config.ignore
  follow ⟨root, config, catalog?, wait, rules⟩ ticks 0 {} (.ofGraph graph)

def watchStopped : String :=
  "\n[bold]Watch stopped.[/bold]"

def watch (root : Path) (noStore : Bool) (wait : Float) (ticks : List Tick) : ConsoleM Unit := do
  loadVariables root
  let config ← loadConfig root
  let catalog? ← if noStore then pure none else openForWatch config
  say ("[bold blue]Hammy Watch[/bold blue]  " ++ config.project.name)
  say ("  Project: " ++ root.toText)
  let graph ← graphForWatch root config catalog?
  say "\n[bold]Watching for changes[/bold] [dim](Ctrl+C to stop)[/dim]\n"
  tryCatch (watchGraph root config catalog? wait graph ticks) fun f => do
    say watchStopped
    throw f
  say watchStopped

end CodeAtlas.Console
