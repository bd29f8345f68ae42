import CodeAtlas.Console.Output
import CodeAtlas.Project.Storing
import CodeAtlas.Project.Template

/-!
# Setting up a project
-/

namespace CodeAtlas.Console

def writeFile (p : Path) (content : String) : ConsoleM Unit := do
  let files ← (← getHost).files.writeText p content
  modify fun c => { c with host := { c.host with files := files } }

def makeDirectory (p : Path) : ConsoleM Unit := do
  let files ← (← getHost).files.ensureDir p
  modify fun c => { c with host := { c.host with files := files } }

/-- Writes a file that a project starts out with, unless it is there or there is nothing to
write. -/
def provide (root : Path) (name : String) (content? : Option String) (missing : String) :
    ConsoleM Unit := do
  let p := root.child name
  if ← (← getHost).files.has p then say ("  [yellow]exists[/yellow]  " ++ name)
  else
    match content? with
    | some content =>
      writeFile p content
      say ("  [green]created[/green] " ++ name)
    | none => say ("  [red]missing[/red] template: " ++ missing)

def setUp (root : Path) : ConsoleM Unit := do
  let template (content : String) : ConsoleM (Option String) :=
    return if (← getHost).installation.templates then some content else none
  provide root "hammy.yaml" (some ((← template Template.settings).getD Template.leastSettings))
    "hammy.yaml"
  makeDirectory (root.child "config")
  provide root "config/agents.yaml" (← template Template.agents) "agents.yaml"
  provide root "config/tasks.yaml" (← template Template.tasks) "tasks.yaml"
  provide root ".hammyignore" (some Template.ignored) ".hammyignore"
  sayAll [
    "\n[bold green]Hammy initialized in " ++ root.toText ++ "[/bold green]",
    "Edit hammy.yaml to set your project name, then edit config/agents.yaml to set your LLM provider.",
    "Run [bold]hammy index[/bold] to index the codebase."]

end CodeAtlas.Console
