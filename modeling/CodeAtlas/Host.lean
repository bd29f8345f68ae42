import CodeAtlas.Crew.Task
import CodeAtlas.Extract.Languages
import CodeAtlas.KeyValue.Store
import CodeAtlas.Project.Environment
import CodeAtlas.Services
import CodeAtlas.Summary.Model
import CodeAtlas.Vector.Catalog

/-!
# The host

Everything outside of the library that its operations read and change: files and the trees of their
texts, the time, the variables that are set, commands, the language model, the two stores, and the
engine of the agents. What an operation changed stays changed when it fails.
-/

namespace CodeAtlas

structure Installation where
  templates : Bool := true
  webServer : Bool := true
deriving Inhabited

structure Host where
  files : Files := {}
  grammar : Source.Grammar := {}
  now : Moment := default
  environment : Environment := {}
  shell : History.Shell := {}
  model : Summary.Model := {}
  vectors : Option Vector.Store := none
  keys : Option KeyValue.Store := none
  engine : Crew.Engine := {}
  installation : Installation := {}
deriving Inhabited

abbrev HostM (α : Type) : Type := ExceptT Failure (StateM Host) α

namespace Host

def onServices {α : Type} (op : ServiceM α) : HostM α := do
  let h ← get
  let (r, s) := op.run.run ⟨h.shell, h.vectors⟩
  set { h with shell := s.shell, vectors := s.vectors }
  match r with
  | .ok a => return a
  | .error f => throw f

def onShell {α : Type} (op : History.ShellM α) : HostM α :=
  onServices (Services.onShell op)

/-- Works on the vector store, which must be there. -/
def onVectors {α : Type} (op : Vector.StoreM α) : HostM α :=
  onServices (Services.onVectors op)

def openCatalog (settings : StoreSettings) (project : String) : HostM Vector.Catalog := do
  if (← get).vectors.isNone then throw .storeDown
  return .ofSettings settings project

def catalogOr (catalog? : Option Vector.Catalog) (config : Config) : HostM Vector.Catalog :=
  match catalog? with
  | some c => pure c
  | none => openCatalog config.store config.project.name

def attempt {α : Type} (op : HostM α) : HostM (Except Failure α) := do
  let (r, h) := op.run.run (← get)
  set h
  return r

end Host

end CodeAtlas
