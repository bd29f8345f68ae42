import CodeAtlas.Decimal.Fixed
import CodeAtlas.Report.Past
import CodeAtlas.Report.Symbol
import CodeAtlas.Vector.Memory

/-!
# Reports on what the vector store keeps

Notes of the working memory, and the symbols and commits that a search found. What the store gives
back need not have the form in which it was kept.
-/

namespace CodeAtlas.Report

open CodeAtlas.Vector

def need (e : Payload) (key : String) : Except Failure Json :=
  match e.lookup key with
  | some v => .ok v
  | none => .error (.missingField key)

def asText : Json → Except Failure String
  | .str s => .ok s
  | _ => .error .wrongType

def asTexts : Json → Except Failure (List String)
  | .arr items => items.mapM asText
  | .str s => .ok (s.toList.map fun c => String.ofList [c])
  | .obj fields => .ok (fields.map (·.1))
  | _ => .error .wrongType

def asFixed (places : Nat) : Json → Except Failure String
  | .str s => .error (.badNumber s)
  | v =>
    match v.float? with
    | some x => .ok (Decimal.fixed places x)
    | none => .error .wrongType

def commaField? (e : Payload) (key : String) : Except Failure (Option String) :=
  match (e.lookup key).filter Json.isSomething with
  | some v => (asTexts v).map fun ts => some (Text.join ", " ts)
  | none => .ok none

def startOfField (e : Payload) (key default : String) (length : Nat) : Except Failure String :=
  ((e.lookup key).map asText |>.getD (.ok default)).map (Text.cut length)

def noteLines (e : Payload) : Except Failure (List String) := do
  let key ← need e "key"
  let score ← match e.lookup "score" with
    | none | some .null => pure ""
    | some v => (asFixed 2 v).map fun s => " (relevance: " ++ s ++ ")"
  let tags ← commaField? e "tags"
  let content ← need e "content"
  let files ← commaField? e "source_files"
  let stored ← startOfField e "created_at" "?" 19
  return ["[" ++ key.shown ++ "]" ++ score ++ around " tags: " tags, ← asText content] ++
    ((files.map ("  files: " ++ ·)).toList ++ ["  stored: " ++ stored, ""])

def recallReport (question key : String) (entries : List Payload) : Except Failure String :=
  match entries with
  | [] =>
    .ok (if key.isEmpty then "No brain entries found matching '" ++ question ++ "'."
      else "No brain entry found for key '" ++ key ++ "'.")
  | found => return Text.trim (Text.join "\n" (← found.mapM noteLines).flatten)

def nothingAsked : String :=
  "Provide either a key (exact lookup) or a query (semantic search)."

def noteSummary (content : String) : Except Failure String :=
  match Text.lines content with
  | [] => .error .nothingFirst
  | first :: _ => .ok (Text.cut 80 first ++ (if 80 < content.length then "…" else ""))

def staleAfter : Int := 30

def daysBetween (later earlier : Moment) : Except Failure Int :=
  match later.minus? earlier with
  | some d => .ok (Moment.daysIn d)
  | none => .error .mixedDates

/-- A value that something is made from, if it can be read as a date. -/
def fromDate (v : Json) (f : Moment → Except Failure (List String)) :
    Except Failure (List String) := do
  match Moment.parse (← asText v) with
  | .ok m => f m
  | .error _ => return []

def noteFlags (now : Moment) (updated : Json) (e : Payload) : Except Failure (List String) := do
  let stale ← if updated.isSomething then
      fromDate updated fun m => do
        let age ← daysBetween now m
        return if staleAfter < age then ["stale? " ++ toString age ++ "d old"] else []
    else pure []
  let expiry ← match (e.lookup "expires_at").filter Json.isSomething with
    | none => pure []
    | some v => fromDate v fun m => do
        let left ← daysBetween m now
        return [if 0 ≤ left then "expires in " ++ toString left ++ "d" else "EXPIRED"]
  return stale ++ expiry

/-- The date under which a note is listed: agents see when it was first written, clients when it
last changed. -/
def listedDate (a : Audience) (e : Payload) : Json :=
  let created := (e.lookup "created_at").getD (.str "")
  match a with
  | .agents => created
  | .clients => ((e.lookup "updated_at").filter Json.isSomething).getD created

def listedNote (a : Audience) (now : Moment) (e : Payload) : Except Failure (List String) := do
  let listed := listedDate a e
  let date ← (asText listed).map (Text.cut 10)
  let tags ← commaField? e "tags"
  let dated ← match a with
    | .agents => pure ("  (" ++ date ++ ")")
    | .clients =>
      let flags ← noteFlags now listed e
      pure ("  (updated " ++ date ++ ")" ++ (if flags.isEmpty then "" else "  ⚠ " ++
        Text.join ", " flags))
  let summary ← noteSummary (← asText (← need e "content"))
  return ["  " ++ (← need e "key").shown ++ around " [" tags "]" ++ dated, "    " ++ summary]

def listReport (a : Audience) (now : Moment) (tag : String) (entries : List Payload) :
    Except Failure String :=
  match entries with
  | [] =>
    .ok ("No brain entries" ++ around " with tag '" (some tag) "'" ++
      ". Use store_context to save findings.")
  | found => return Text.join "\n" ((toString found.length ++ " brain " ++
      (if found.length == 1 then "entry" else "entries") ++ ":\n") ::
        (← found.mapM (listedNote a now)).flatten)

def keptReport (key : String) (tags : List String) (days : Int) : String :=
  "Stored '" ++ key ++ "'" ++ (if tags.isEmpty then "" else " [tags: " ++ Text.join ", " tags ++
    "]") ++ (if 0 < days then " [expires in " ++ toString days ++ "d]" else "") ++
    ". Retrieve with: recall_context(key='" ++ key ++ "')"

def shownField (e : Payload) (key : String) (default : String := "?") : String :=
  ((e.lookup key).map Json.shown).getD default

def firstLine (e : Payload) : Except Failure String :=
  match e.lookup "lines" with
  | none => .ok "0"
  | some (.arr (v :: _)) => .ok v.shown
  | some (.arr []) => .error .nothingFirst
  | some (.str s) => if s.isEmpty then .error .nothingFirst else .ok (Text.cut 1 s)
  | some _ => .error .wrongType

def foundSummary? (e : Payload) : Option String :=
  ((e.lookup "summary").filter Json.isSomething).map Json.shown

def foundTitle (places : Nat) (line : String) (e : Payload) : Except Failure String := do
  let score ← asFixed places ((e.lookup "score").getD (.int 0))
  return "[" ++ score ++ "] " ++ shownField e "type" ++ ": " ++ shownField e "name" ++ " (" ++
    shownField e "file" ++ ":" ++ line ++ ")"

def foundReport (places : Nat) (question : String) (found : List Payload) : Except Failure String :=
  match found with
  | [] => .ok ("No code matching '" ++ question ++ "' found.")
  | found => do
    let lines ← found.mapM fun e => do
      return (← foundTitle places (shownField e "lines") e) ::
        ((foundSummary? e).map ("  " ++ ·)).toList
    return Text.join "\n" lines.flatten

def foundBriefly (question : String) (limit : Int) (found : List Payload) : Except Failure String :=
  match found with
  | [] => .ok ("No code matching '" ++ question ++ "' found.")
  | found => do
    let lines ← found.mapM fun e => do
      return (← foundTitle 3 (← firstLine e) e) ++ around " | " (foundSummary? e)
    let more := if limit ≤ found.length then
        ["\n... showing top " ++ toString limit ++ ". Use language/node_type to narrow."]
      else []
    return Text.join "\n" (lines ++ more)

def foundCommit (e : Payload) : Except Failure (List String) := do
  let revision ← asText (← need e "revision")
  let score ← asFixed 2 ((e.lookup "score").getD (.int 0))
  let files ← match (e.lookup "files_changed").filter Json.isSomething with
    | some v => (asTexts v).map fun ts => ["  files: " ++ Text.join ", " (ts.take 5)]
    | none => pure []
  return ("[" ++ shortRevision revision ++ "] (relevance: " ++ score ++ ") by " ++
    (← need e "author").shown ++ ": " ++ (← need e "message").shown) :: files

def foundCommits (question : String) (found : List Payload) : Except Failure String :=
  match found with
  | [] => .ok ("No commits matching '" ++ question ++ "' found.")
  | found => return Text.join "\n" (← found.mapM foundCommit).flatten

end CodeAtlas.Report
