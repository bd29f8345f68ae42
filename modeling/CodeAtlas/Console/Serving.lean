import CodeAtlas.Console.Output
import CodeAtlas.Tool.Server
import CodeAtlas.View.Graph

/-!
# Serving a project from the console
-/

namespace CodeAtlas.Console

def transports : List String :=
  ["stdio", "sse"]

def serve (root : Path) (transport : String) : ConsoleM Unit := do
  loadVariables root
  let config ← loadConfig root
  sayAll ["[bold blue]Starting Hammy MCP server[/bold blue]", "  Project: " ++ config.project.name,
    "  Root: " ++ config.project.root, "  Transport: " ++ transport]
  discard (onHost (Tool.Server.start root config))
  if !transports.contains transport then
    say ("[red]Unknown transport: " ++ transport ++ "[/red]")
    stop
  start (.tools transport)

def view (root : Path) (port : Int) (noBrowser : Bool) : ConsoleM Unit := do
  let h ← getHost
  if !h.installation.webServer then
    say "[red]Error:[/red] 'uvicorn' is required for the visualizer."
    say "Install it with:  [bold]pip install uvicorn fastapi[/bold]"
    stop
  if let .error f := View.ofProject h.files root then
    say ("[red]Error:[/red] " ++ f.message)
    stop
  let url := "http://localhost:" ++ toString port
  sayAll ["\n[bold blue]Hammy Visualizer[/bold blue]", "  URL: [bold]" ++ url ++ "[/bold]",
    "  Project: " ++ root.name, "\n  Press [bold]Ctrl+C[/bold] to stop.\n"]
  if !noBrowser then start (.browser url)
  start (.pages "0.0.0.0" port "warning")

end CodeAtlas.Console
