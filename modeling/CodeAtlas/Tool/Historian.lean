import CodeAtlas.Tool.Request
import CodeAtlas.Tool.Shared

/-!
# The historian

The tools of the agent that knows the past of a project.
-/

namespace CodeAtlas.Tool

structure Historian where
  system : History.System
  catalog : Option Vector.Catalog := none

namespace Historian

def tools : List String :=
  ["vcs_log", "vcs_blame", "vcs_churn", "search_commits"]

def answer (t : Historian) (now : Moment) (r : Request) : ServiceM String :=
  match r, t.catalog with
  | .log file limit, _ => log t.system now file limit
  | .blame file, _ => blame t.system file
  | .churn days, _ => churn t.system now days
  | .searchCommits text limit, some c => searchCommits c text limit
  | .searchCommits _ _, none => return "Commit search not available (Qdrant not configured)."
  | _, _ => throw .noSuchTool

def call (t : Historian) (now : Moment) (tool : String) (arguments : Json) : ServiceM String := do
  let r ← Request.among tools tool arguments
  t.answer now r

end Historian

end CodeAtlas.Tool
