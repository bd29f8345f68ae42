import CodeAtlas.Project.Template
import CodeAtlas.Tool.Explorer
import CodeAtlas.Tool.Historian

/-!
# The team

Three agents answer questions about a project: one explores its code, one its past, and one puts
their findings together. What is known about them is read from a file of the project or, failing
that, from the template. Without a history, the explorer works alone.
-/

namespace CodeAtlas.Crew

def settingsPath (root : Path) : Path :=
  (root.child "config").child "agents.yaml"

def holdsSomething : Yaml → Bool
  | .null => false
  | .bool b => b
  | .int n => n != 0
  | .float x => x != 0.0
  | .date _ => true
  | .str s => !s.isEmpty
  | .list items => !items.isEmpty
  | .map entries => !entries.isEmpty

def readSettings (text : String) : Except Failure Yaml :=
  match Yaml.parse? text with
  | none => .error .malformedSettings
  | some v => .ok (if holdsSomething v then v else .map [])

def loadSettings (h : Host) (root : Path) : Except Failure Yaml := do
  let p := settingsPath root
  if ← h.files.has p then
    let text ← h.files.read p
    readSettings text
  else if h.installation.templates then readSettings Template.agents
  else return .map []

def entriesOf : Yaml → Except Failure (List (Yaml × Yaml))
  | .map entries => .ok entries
  | _ => .error .agentsNotNamed

def valueOf? (name : String) (entries : List (Yaml × Yaml)) : Option Yaml :=
  (entries.find? fun e => Yaml.sameKey e.1 (.str name)).map (·.2)

def sectionOf (settings : Yaml) (name : String) : Except Failure (List (Yaml × Yaml)) := do
  match valueOf? name (← entriesOf settings) with
  | some v => entriesOf v
  | none => return []

def said (entries : List (Yaml × Yaml)) (key : String) (default : Json) : Json :=
  match valueOf? key entries with
  | some v => v.toJson?.getD .null
  | none => default

/-- An agent with its tools; what its settings do not say is taken from `usual`. -/
def Agent.ofSettings (usual : Agent) (settings : Yaml) (name : String) (tools : List String) :
    Except Failure Agent := do
  let s ← sectionOf settings name
  return {
    role := said s "role" usual.role
    goal := said s "goal" usual.goal
    backstory := said s "backstory" usual.backstory
    model := said s "llm" .null
    mostRounds := said s "max_iter" usual.mostRounds
    verbose := said s "verbose" usual.verbose
    tools := tools }

def usualExplorer : Agent where
  role := .str "Codebase Explorer"
  goal := .str "Map structural relationships in the codebase."
  backstory := .str "You are an expert at code structure analysis."
  mostRounds := .int 5
  verbose := .bool false

def usualHistorian : Agent where
  role := .str "Codebase Historian"
  goal := .str "Provide temporal context about code changes."
  backstory := .str "You are an expert at reading VCS history."
  mostRounds := .int 5
  verbose := .bool false

def usualDispatcher : Agent where
  role := .str "Codebase Intelligence Dispatcher"
  goal := .str "Analyze queries and synthesize results from Explorer and Historian."
  backstory := .str "You are an expert at understanding developer needs."
  mostRounds := .int 10
  verbose := .bool true

structure Team where
  explorer : Agent
  historian : Agent
  dispatcher : Agent

namespace Team

/-- Puts together the agents of a project. The version control system may be given; otherwise it is
looked for in the project. -/
def assemble (config : Config) (system? : Option History.System) (catalog? : Option Vector.Catalog)
    (h : Host) (graph : Index.Graph) : Except Failure Team := do
  let root := h.files.resolve (Path.ofText config.project.root)
  let settings ← loadSettings h root
  let readers ← Index.Readers.ofNames config.parsing.languages
  let system? := system?.or (History.detect h.files root).toOption
  let explorer : Tool.Explorer :=
    ⟨root, readers, graph, some (Search.buildIndex graph.nodes), catalog?⟩
  return {
    explorer := ← usualExplorer.ofSettings settings "explorer" explorer.tools
    historian := ← usualHistorian.ofSettings settings "historian"
      (if system?.isSome then Tool.Historian.tools else [])
    dispatcher := ← usualDispatcher.ofSettings settings "dispatcher" [] }

def exploration (t : Team) (question : String) : Task where
  agent := t.explorer
  description := "Find code entities related to: '" ++ question ++ "'\n\n" ++
    "Use AST Query to find relevant files, classes, and methods. " ++
    "List what you find with file paths and line numbers. " ++
    "Keep it factual - just report what exists in the code."
  expected := "A list of relevant code entities with their locations and basic descriptions."

def research (t : Team) (question : String) : Task where
  agent := t.historian
  description := "Research VCS history related to: '" ++ question ++ "'\n\n" ++
    "Based on the Explorer's findings, use Git Log and File Churn tools " ++
    "to check the commit history. Report who changed these files, when, " ++
    "and how often they change. Keep it brief."
  expected := "A summary of relevant commits, authors, and change frequency."

def synthesis (t : Team) (question : String) : Task where
  agent := t.dispatcher
  description := "Answer: '" ++ question ++ "'\n\n" ++
    "Combine the Explorer's code structure findings with the Historian's " ++
    "change history. Provide a complete answer with both what the code does " ++
    "and its evolution over time. Highlight any concerns like high churn."
  expected := "A comprehensive answer combining code structure and history."
  context := [(t.exploration question).description, (t.research question).description]

def tasks (t : Team) (question : String) : List Task :=
  if t.historian.tools.isEmpty then [t.exploration question]
  else [t.exploration question, t.research question, t.synthesis question]

def ask (t : Team) (question : String) : HostM String := do
  let h ← get
  let (r, engine) := h.engine.run (t.tasks question)
  set { h with engine := engine }
  match r with
  | .ok answer => return answer
  | .error f => throw f

end Team

end CodeAtlas.Crew
