import CodeAtlas.History.Repository
import CodeAtlas.Json.Shown

/-!
# Reports on the past

Commits, the authors of lines, and how often files change.
-/

namespace CodeAtlas.Report

def shortRevision (revision : String) : String :=
  Text.cut 8 revision

def commitLines (c : History.Commit) : List String :=
  let files := Text.join ", " (c.files.take 5) ++
    (if 5 < c.files.length then " (+" ++ toString (c.files.length - 5) ++ " more)" else "")
  ("[" ++ shortRevision c.revision ++ "] " ++ c.date.dateText ++ " by " ++ c.author ++ ": " ++
    c.message) :: (if files.isEmpty then [] else ["  files: " ++ files])

def logReport (commits : List History.Commit) : String :=
  if commits.isEmpty then "No commits found." else Text.join "\n" (commits.flatMap commitLines)

def blameReport (file : String) (lines : List History.BlameLine) : String :=
  if lines.isEmpty then "No blame data for " ++ file ++ "."
  else Text.join "\n" (lines.map fun l =>
    "L" ++ Text.padLeft 4 (toString l.number) ++ " | " ++ l.revision ++ " | " ++
      Text.padRight 15 l.author ++ " | " ++ l.content)

def churnReport (windowDays : Int) (counts : List (String × Nat)) : String :=
  if counts.isEmpty then "No changes found in the specified window."
  else Text.join "\n" (("File churn in last " ++ toString windowDays ++ " days:\n") ::
    (counts.take 30).map fun (file, n) =>
      "  " ++ Text.padLeft 4 (toString n) ++ " changes | " ++
        String.ofList (List.replicate (min n 20) '█') ++ " | " ++ file)

def recentLines (file : String) (commits : List History.Commit) : List String :=
  if commits.isEmpty then []
  else ("\nRecent commits for " ++ file ++ ":") :: commits.map fun c =>
    "  [" ++ shortRevision c.revision ++ "] " ++ c.date.dateText ++ " " ++ c.author ++ ": " ++
      c.message

end CodeAtlas.Report
