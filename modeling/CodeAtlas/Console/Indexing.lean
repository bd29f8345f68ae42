import CodeAtlas.Analysis.Bridge
import CodeAtlas.Console.Output
import CodeAtlas.Decimal.Fixed
import CodeAtlas.Index.Build
import CodeAtlas.Index.Commits

/-!
# Indexing a project from the console
-/

namespace CodeAtlas.Console

structure IndexFlags where
  noStore : Bool := false
  noCommits : Bool := false
  enrich : Bool := false

def openAll (config : Config) : HostM Vector.Catalog := do
  let c ← Host.openCatalog config.store config.project.name
  Host.onVectors c.ensureAll
  return c

def openForIndex (config : Config) : ConsoleM (Option Vector.Catalog) := do
  match ← attempt (openAll config) with
  | .ok c => return some c
  | .error f =>
    say ("[yellow]Warning:[/yellow] Qdrant not available (" ++ f.message ++ ")")
    say "Continuing without Qdrant. Use --no-qdrant to suppress this warning."
    return none

def indexTable (r : Index.Report) : Printed :=
  .table "Code Indexing Results" ["Metric", "Value"]
    [["Files processed", toString r.filesProcessed], ["Files skipped", toString r.filesSkipped],
      ["Nodes extracted", toString r.nodesExtracted],
        ["Edges extracted", toString r.edgesExtracted],
      ["Nodes indexed (Qdrant)", toString r.nodesIndexed]]

def sayErrors (heading : String) (most : Nat) (errors : List String) : ConsoleM Unit :=
  if errors.isEmpty then pure ()
  else sayAll (("[yellow]" ++ heading ++ " (" ++ toString errors.length ++ "):[/yellow]") ::
    (errors.take most).map ("  - " ++ ·))

def keepSummarized (c : Vector.Catalog) (nodes : List Node) : ConsoleM Unit := do
  let summarized := nodes.filter fun n => !n.summary.isEmpty
  put (.status ("[bold blue]Re-indexing " ++ toString summarized.length ++
    " enriched symbols in Qdrant..."))
  match ← attempt (Host.onVectors (c.keepSymbols summarized)) with
  | .ok n =>
    say ("[green]Qdrant updated — " ++ toString n ++ " symbols re-embedded with summaries.[/green]")
  | .error f => say ("[red]Qdrant update failed:[/red] " ++ f.message)

def summarize (root : Path) (settings : EnrichmentSettings) (catalog? : Option Vector.Catalog)
    (nodes : List Node) : ConsoleM (List Node) := do
  let total := (Summary.wanted settings nodes).length
  say ("\n[bold blue]Enriching " ++ toString total ++ " symbols with LLM summaries...[/bold blue]")
  say ("  Model: " ++ settings.model ++ "  |  Batch size: " ++ toString settings.batchSize ++ "\n")
  put (.task "Generating summaries" total)
  let o ← onHost (Index.enrichNodes root settings nodes)
  showProgress o.progress
  say ("[green]Enriched " ++ toString o.enriched ++ " symbols.[/green]")
  sayErrors "Enrichment errors" 5 o.errors
  if let some c := catalog? then
    if 0 < o.enriched then keepSummarized c o.nodes
  return o.nodes

def indexCommits (config : Config) (catalog? : Option Vector.Catalog) : ConsoleM Unit := do
  put (.status "[bold blue]Indexing commit history...")
  match ← attempt (Index.buildCommits config catalog?) with
  | .ok r =>
    say ("\nCommits: " ++ toString r.processed ++ " processed, " ++ toString r.indexed ++
      " indexed")
  | .error f => say ("[yellow]Commit indexing skipped:[/yellow] " ++ f.message)

def storeGraph (root : Path) (g : Index.Graph) : ConsoleM Unit := do
  let h ← getHost
  let files ← Index.Cache.save h.files root h.now g
  modify fun c => { c with host := { h with files := files } }
  say ("\n[green]Index cache saved →[/green] " ++
    ((Index.Cache.path root).relativeTo? root |>.getD {}).toText)

def sayBridges (g : Index.Graph) : ConsoleM Unit := do
  let bridges := Bridge.resolve g.nodes g.edges
  if !bridges.isEmpty then
    say ("\n[bold]Cross-language bridges found: " ++ toString bridges.length ++ "[/bold]")
    sayAll ((bridges.take 5).map fun b => "  - " ++ b.context ++ " (" ++
      Decimal.percent b.confidence ++ ")")

def index (root : Path) (o : IndexFlags) : ConsoleM Unit := do
  loadVariables root
  let config ← loadConfig root
  let enrichment := { config.enrichment with enabled := o.enrich || config.enrichment.enabled }
  let catalog? ← if o.noStore then pure none else openForIndex config
  put (.status "[bold blue]Indexing codebase...")
  let b ← onHost (Index.build config catalog? ⟨catalog?.isSome, false⟩)
  put (indexTable b.report)
  if !b.report.errors.isEmpty then
    say ("\n[yellow]Errors (" ++ toString b.report.errors.length ++ "):[/yellow]")
    sayAll ((b.report.errors.take 10).map ("  - " ++ ·))
  let nodes ← if enrichment.enabled && !b.graph.nodes.isEmpty
    then summarize root enrichment catalog? b.graph.nodes
    else pure b.graph.nodes
  if !o.noCommits then indexCommits config catalog?
  let graph : Index.Graph := ⟨nodes, b.graph.edges⟩
  storeGraph root graph
  sayBridges graph

end CodeAtlas.Console
