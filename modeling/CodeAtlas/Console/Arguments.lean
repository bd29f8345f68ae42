import CodeAtlas.Console.Command

/-!
# The command line

A command line names a command and a project. Options start with two dashes; some take the word
after them as their value.
-/

namespace CodeAtlas.Console

structure Words where
  options : List (String × String) := []
  others : List String := []

/-- Sorts words; `switches` are the options without a value, `valued` those with one. An option that
is neither, or that lacks its value, is refused. -/
def Words.sort? (switches valued : List String) : List String → Option Words
  | [] => some {}
  | w :: rest =>
    if switches.contains w then
      (sort? switches valued rest).map fun s => { s with options := (w, "") :: s.options }
    else if valued.contains w then
      match rest with
      | [] => none
      | value :: rest =>
        (sort? switches valued rest).map fun s => { s with options := (w, value) :: s.options }
    else if Text.startsWith w "--" then none
    else (sort? switches valued rest).map fun s => { s with others := w :: s.others }

def Words.has (s : Words) (option : String) : Bool :=
  (s.options.lookup option).isSome

def Words.value? (s : Words) (option : String) : Option String :=
  s.options.lookup option

def Words.number? (s : Words) (option : String) : Option (Option Int) :=
  match s.value? option with
  | none => some none
  | some text => (Json.intOfText? text).map some

structure Invocation where
  command : Command
  directory : String

def Words.invoke? (s : Words) (command : Command) : Option Invocation :=
  match s.others with
  | [] => some ⟨command, "."⟩
  | [directory] => some ⟨command, directory⟩
  | _ => none

def Words.exportFlags? (s : Words) : Option ExportFlags := do
  return {
    host := s.value? "--host"
    port := ← s.number? "--port"
    db := ← s.number? "--db"
    password := s.value? "--password"
    keyPrefix := s.value? "--prefix"
    batchSize := ← s.number? "--batch-size"
    commitDepth := ← s.number? "--commit-depth"
    flush := s.has "--flush" }

def Invocation.ofWords? : List String → Option Invocation
  | "init" :: words => do (← Words.sort? [] [] words).invoke? .setUp
  | "index" :: words => do
    let s ← Words.sort? ["--no-qdrant", "--no-commits", "--enrich"] [] words
    s.invoke? (.index ⟨s.has "--no-qdrant", s.has "--no-commits", s.has "--enrich"⟩)
  | "query" :: words => do
    let s ← Words.sort? [] ["--path", "-p"] words
    match s.others with
    | [question] => some ⟨.query question, ((s.value? "--path").or (s.value? "-p")).getD "."⟩
    | _ => none
  | "status" :: words => do (← Words.sort? [] [] words).invoke? .status
  | "watch" :: words => do
    let s ← Words.sort? ["--no-qdrant"] ["--debounce"] words
    let wait ← match s.value? "--debounce" with
      | none => some 1.5
      | some text => Json.floatOfText? text
    s.invoke? (.watch (s.has "--no-qdrant") wait [])
  | "serve" :: words => do
    let s ← Words.sort? [] ["--transport", "-t"] words
    s.invoke? (.serve (((s.value? "--transport").or (s.value? "-t")).getD "stdio"))
  | "viz" :: words => do
    let s ← Words.sort? ["--no-browser"] ["--port", "-p"] words
    let port := (← s.number? "--port").or (← s.number? "-p")
    s.invoke? (.view (port.getD 8765) (s.has "--no-browser"))
  | "export" :: "redis" :: words => do
    let s ← Words.sort? ["--flush"]
      ["--host", "--port", "--db", "--password", "--prefix", "--batch-size", "--commit-depth"] words
    s.invoke? (.exportKeys (← s.exportFlags?))
  | _ => none

def usage : String :=
  Text.join "\n"
    ["usage: init | index | query QUESTION | status | watch | serve | viz | export redis",
    "The machine on which a command works is read from standard input."]

end CodeAtlas.Console
