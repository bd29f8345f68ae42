import CodeAtlas.Report.Kept
import CodeAtlas.Search.Hybrid
import CodeAtlas.Services

/-!
# What several tools do

Searches that use the vector store, the working memory and the history of the project.
-/

namespace CodeAtlas.Tool

open Report

def fields : Json → Vector.Payload
  | .obj fs => fs
  | _ => []

def searchHybrid (catalog? : Option Vector.Catalog) (index? : Option Search.WordIndex)
    (nodes : List Node) (text : String) (limit : Int) (scope : Search.Scope) :
    ServiceM (List Vector.Payload) := do
  let pool := limit * Search.poolFactor
  let byWords := Search.rankWith index? nodes scope text pool
  let byMeaning? ← match catalog? with
    | none => pure none
    | some c =>
      let found ← Services.onVectors (c.searchSymbols text pool scope.language scope.kind)
      pure (some (found.map Json.obj))
  match Search.combine? byWords byMeaning? limit with
  | some results => return results.map fields
  | none => throw (.missingField "node_id")

def keepNote (c : Vector.Catalog) (now : Moment) (key content tags files : String) (days : Int) :
    ServiceM String := do
  let tagList := commaParts tags
  let expires ← if 0 < days then
      match now.addDays? days with
      | some m => pure m.toText
      | none => throw .dateOutOfRange
    else pure ""
  Services.onVectors (c.keepNote now ⟨key, content, tagList, commaParts files, expires⟩)
  return keptReport key tagList days

def mostRecalled : Int := 10

def recallNotes (c : Vector.Catalog) (now : Moment) (question key tag : String) (limit : Int) :
    ServiceM String := do
  if question.isEmpty && key.isEmpty then return nothingAsked
  let found ← Services.onVectors (c.recallNotes now question key tag (min limit mostRecalled))
  recallReport question key found

def listNotes (a : Audience) (c : Vector.Catalog) (now : Moment) (tag : String) :
    ServiceM String := do
  let found ← Services.onVectors (c.listNotes now tag)
  listReport a now tag found

def forgetNote (c : Vector.Catalog) (now : Moment) (key : String) : ServiceM String := do
  let found ← Services.onVectors (c.recallNotes now "" key "" 5)
  if found.isEmpty then return "No brain entry found for key '" ++ key ++ "'."
  Services.onVectors (c.forgetNote key)
  return "Deleted brain entry '" ++ key ++ "'."

def searchCommits (c : Vector.Catalog) (text : String) (limit : Int) : ServiceM String := do
  let found ← Services.onVectors (c.searchCommits text limit)
  foundCommits text found

def log (system : History.System) (now : Moment) (file : String) (limit : Int) :
    ServiceM String := do
  return logReport (← Services.onShell (History.log system now file limit))

def blame (system : History.System) (file : String) : ServiceM String := do
  match ← Services.attempt (Services.onShell (History.blame system file)) with
  | .ok lines => return blameReport file lines
  | .error (.commandFailed command output) =>
    return "Error: " ++ (Failure.commandFailed command output).message
  | .error f => throw f

def churn (system : History.System) (now : Moment) (windowDays : Int) : ServiceM String := do
  return churnReport windowDays (← Services.onShell (History.churn system now "" windowDays))

end CodeAtlas.Tool
