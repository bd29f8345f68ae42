import CodeAtlas.Console.Command
import CodeAtlas.Source.Codec

/-!
# Snapshots of a machine

A command works on a snapshot of the machine: an object with the optional fields `now`, a date;
`environment`, the variables that are set; and `files`, a list of objects with a `path`, a `content`
and, for source texts, the `tree` that the parser of their language gives for it.
-/

namespace CodeAtlas.Console

def addFile (h : Host) (file : Json) : Host :=
  match (file.get? "path").bind Json.text? with
  | none => h
  | some path =>
    let content := ((file.get? "content").bind Json.text?).getD ""
    let grammar := match file.get? "tree" with
      | some tree => h.grammar.learn (languageOf? (Path.ofText path)).toList content (.ofJson tree)
      | none => h.grammar
    { h with files := h.files.write (Path.ofText path) content, grammar := grammar }

def variablesOf (v : Json) : Environment :=
  match v.get? "environment" with
  | some (.obj fields) => .ofList (fields.filterMap fun (name, value) => value.text?.map (name, ·))
  | _ => {}

def hostOf (v : Json) : Host :=
  let now := match (v.get? "now").bind Json.text? with
    | some text => (Moment.parse text).toOption.getD default
    | none => default
  let files := match v.get? "files" with
    | some (.arr files) => files
    | _ => []
  files.foldl addFile { now := now.toUniversal, environment := variablesOf v }

def marks : List String :=
  ["bold", "bold blue", "bold green", "dim", "cyan", "green", "red", "yellow"]

def plain (text : String) : String :=
  marks.foldl (fun s m => Text.replace ("[/" ++ m ++ "]") "" (Text.replace ("[" ++ m ++ "]") "" s))
    text

def Printed.lines : Printed → List String
  | .line text => [plain text]
  | .table title columns rows =>
    title :: (columns :: rows).map fun cells => "  " ++ Text.join " | " cells
  | .status text => [plain text]
  | .task text total => [text ++ " (" ++ toString total ++ ")"]
  | .completed count => ["  " ++ toString count]

def Served.line : Served → String
  | .tools transport => "serving tools over " ++ transport
  | .browser url => "opening " ++ url
  | .pages host port _ => "serving pages on " ++ host ++ ":" ++ toString port

end CodeAtlas.Console
