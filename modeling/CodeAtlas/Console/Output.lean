import CodeAtlas.Host

/-!
# The console

What commands print and start. Texts carry marks for colours and weights; how they look is left to
whoever shows them.
-/

namespace CodeAtlas

namespace Console

inductive Printed where
  | line (text : String)
  | table (title : String) (columns : List String) (rows : List (List String))
  | status (text : String)
  | task (text : String) (total : Nat)
  | completed (count : Nat)
deriving Repr, DecidableEq

inductive Served where
  | tools (transport : String)
  | browser (url : String)
  | pages (host : String) (port : Int) (logLevel : String)
deriving Repr, DecidableEq

end Console

structure Console where
  host : Host := {}
  printed : List Console.Printed := []
  served : List Console.Served := []
deriving Inhabited

namespace Console

/-- A command at work. What it printed and changed stays when it fails. -/
abbrev ConsoleM (α : Type) : Type := ExceptT Failure (StateM Console) α

def put (p : Printed) : ConsoleM Unit :=
  modify fun c => { c with printed := c.printed ++ [p] }

def say (text : String) : ConsoleM Unit :=
  put (.line text)

def sayAll (lines : List String) : ConsoleM Unit :=
  lines.forM say

def showProgress (progress : List (Nat × Nat)) : ConsoleM Unit :=
  progress.forM fun (done, _) => put (.completed done)

def start (s : Served) : ConsoleM Unit :=
  modify fun c => { c with served := c.served ++ [s] }

def getHost : ConsoleM Host :=
  return (← get).host

def onHost {α : Type} (op : HostM α) : ConsoleM α := do
  let c ← get
  let (r, h) := op.run.run c.host
  set { c with host := h }
  match r with
  | .ok a => return a
  | .error f => throw f

def attempt {α : Type} (op : HostM α) : ConsoleM (Except Failure α) :=
  onHost (Host.attempt op)

def stop {α : Type} : ConsoleM α :=
  throw (.exit 1)

def loadVariables (root : Path) : ConsoleM Unit := do
  let h ← getHost
  let env ← h.environment.load h.files root
  modify fun c => { c with host := { h with environment := env } }

def loadConfig (root : Path) : ConsoleM Config := do
  Config.load (← getHost).files root

end Console

end CodeAtlas
