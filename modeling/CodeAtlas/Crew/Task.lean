import CodeAtlas.Failure

/-!
# Agents and tasks

Agents work on tasks in an engine that runs outside of the library. The engine is described by what
it gives back and by a record of the tasks that it was given.
-/

namespace CodeAtlas.Crew

/-- An agent. What its settings give is taken as it is. -/
structure Agent where
  role : Json
  goal : Json
  backstory : Json
  model : Json := .null
  mostRounds : Json
  mayDelegate : Bool := false
  verbose : Json
  tools : List String := []

structure Task where
  agent : Agent
  description : String
  expected : String
  /-- The descriptions of the tasks whose results are given to the agent. -/
  context : List String := []

/-- An engine in which agents work: what it answers, or why it fails, and the tasks of each run. -/
structure Engine where
  reply : Except String String := .ok ""
  runs : List (List Task) := []
deriving Inhabited

def Engine.run (e : Engine) (tasks : List Task) : Except Failure String × Engine :=
  (match e.reply with
    | .ok answer => .ok answer
    | .error reason => .error (.crewFailed reason),
    { e with runs := e.runs ++ [tasks] })

end CodeAtlas.Crew
