import CodeAtlas.Console.Indexing
import CodeAtlas.KeyValue.Export

/-!
# Exporting a project from the console
-/

namespace CodeAtlas.Console

structure ExportFlags where
  host : Option String := none
  port : Option Int := none
  db : Option Int := none
  password : Option String := none
  keyPrefix : Option String := none
  batchSize : Option Int := none
  commitDepth : Option Int := none
  flush : Bool := false

def ExportFlags.options (f : ExportFlags) (s : ExportSettings) : KeyValue.ExportOptions where
  address := ⟨f.host.getD s.host, f.port.getD s.port, f.db.getD s.db, f.password.or s.password⟩
  keyPrefix := f.keyPrefix.getD s.keyPrefix
  batchSize := f.batchSize.getD s.batchSize
  commitDepth := f.commitDepth.getD s.commitDepth
  flush := f.flush

def storedGraph (root : Path) : ConsoleM Index.Graph := do
  match ← Index.Cache.load (← getHost).files root with
  | some g => return g
  | none =>
    say "[red]Error:[/red] No index cache found at .hammy/index.json\nRun [bold]hammy index[/bold] first."
    stop

def exportKeys (root : Path) (f : ExportFlags) : ConsoleM Unit := do
  let config ← loadConfig root
  let o := f.options config.exporting
  let g ← storedGraph root
  let total := (g.nodes.filter (KeyValue.isExported ·.kind)).length
  say ("[bold blue]Redis Export[/bold blue]  " ++ o.address.host ++ ":" ++
    toString o.address.port ++ "/" ++ toString o.address.db)
  say ("  Prefix: " ++ o.keyPrefix ++ "  |  Functions: " ++ toString total ++
    "  |  Commit depth: " ++ toString o.commitDepth)
  if o.flush then say "  [yellow]Flushing existing keys first[/yellow]"
  say ""
  put (.task "Exporting to Redis" total)
  let h ← getHost
  let outcome := KeyValue.exportTo KeyValue.scanPattern h.keys o g.nodes h.now.toText
  modify fun c => { c with host := { h with keys := outcome.store } }
  showProgress outcome.done.progress
  if let some failure := outcome.failure then throw failure
  say ("\n[green]Exported " ++ toString outcome.done.count ++ " functions to Redis.[/green]")
  sayErrors "Errors" 10 outcome.done.errors

end CodeAtlas.Console
