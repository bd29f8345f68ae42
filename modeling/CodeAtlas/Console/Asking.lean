import CodeAtlas.Console.Output
import CodeAtlas.Crew.Team

/-!
# Asking the agents from the console
-/

namespace CodeAtlas.Console

def checkModels (root : Path) : ConsoleM Unit := do
  let files := (← getHost).files
  let p := Crew.settingsPath root
  if ← files.has p then
    let text ← files.read p
    let agents ← Crew.entriesOf (← Crew.readSettings text)
    agents.forM fun (name, settings) => do
      let s ← Crew.entriesOf settings
      if Crew.said s "llm" .null == .null then
        say ("[red]Error:[/red] No LLM configured for '" ++ (name.toJson?.getD .null).shown ++
          "' agent.\n" ++ "Edit config/agents.yaml and set the 'llm' field.")
        stop

def graphForQuestion (root : Path) (config : Config) : ConsoleM Index.Graph := do
  match ← Index.Cache.load (← getHost).files root with
  | some g =>
    say ("Loaded " ++ toString g.nodes.length ++ " symbols from cache.\n")
    return g
  | none =>
    put (.status "[bold blue]Parsing codebase...")
    let b ← onHost (Index.build config none ⟨false, false⟩)
    say ("Parsed " ++ toString b.graph.nodes.length ++ " symbols from codebase.\n")
    return b.graph

def nodesFor (nodes : List Node) (question : String) : List Node :=
  let words := Text.words (Text.lower question)
  let found := nodes.filter fun n =>
    words.any fun w => Text.contains (Text.lower n.name) w || Text.contains (Text.lower n.summary) w
  (if found.isEmpty then nodes else found).take 20

def nodeLines (n : Node) : List String :=
  ["  • " ++ n.kind.word ++ ": [cyan]" ++ n.name ++ "[/cyan]",
    "    Location: " ++ n.loc.file ++ ":" ++ toString n.loc.first ++ "-" ++ toString n.loc.last] ++
    (if n.summary.isEmpty then [] else ["    " ++ n.summary]) ++ [""]

def answerSimply (nodes : List Node) (question : String) (f : Failure) : ConsoleM Unit :=
  sayAll (["[red]Crew analysis failed:[/red] " ++ f.message ++ "\n",
    "[yellow]Falling back to simple search...[/yellow]\n",
      "[bold]Relevant code entities found:[/bold]\n"] ++
    (nodesFor nodes question).flatMap nodeLines)

def askTeam (config : Config) (graph : Index.Graph) (catalog? : Option Vector.Catalog)
    (question : String) :
    ConsoleM Unit := do
  let team ← Crew.Team.assemble config none catalog? (← getHost) graph
  put (.status "[bold blue]Analyzing...")
  say (← onHost (team.ask question))

def query (root : Path) (question : String) : ConsoleM Unit := do
  loadVariables root
  let config ← loadConfig root
  checkModels root
  let graph ← graphForQuestion root config
  let catalog? ← attempt (Host.openCatalog config.store config.project.name)
  tryCatch (askTeam config graph catalog?.toOption question) (answerSimply graph.nodes question)

end CodeAtlas.Console
