import CodeAtlas.History.Repository
import CodeAtlas.Vector.Store

/-!
# Services

What an operation may call without touching files: commands of the machine and the vector store.
What a call changed stays changed when the operation fails.
-/

namespace CodeAtlas

structure Services where
  shell : History.Shell := {}
  vectors : Option Vector.Store := none
deriving Inhabited

abbrev ServiceM (α : Type) : Type := ExceptT Failure (StateM Services) α

namespace Services

def onShell {α : Type} (op : History.ShellM α) : ServiceM α := do
  let s ← get
  let (r, shell) := op.run.run s.shell
  set { s with shell := shell }
  match r with
  | .ok a => return a
  | .error f => throw f

def onVectors {α : Type} (op : Vector.StoreM α) : ServiceM α := do
  let s ← get
  match s.vectors with
  | none => throw .storeDown
  | some store =>
    let (r, store) := op.run.run store
    set { s with vectors := some store }
    match r with
    | .ok a => return a
    | .error f => throw f

def attempt {α : Type} (op : ServiceM α) : ServiceM (Except Failure α) := do
  let (r, s) := op.run.run (← get)
  set s
  return r

end Services

end CodeAtlas
