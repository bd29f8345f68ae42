import CodeAtlas.Index.Readers
import CodeAtlas.Report.Symbol

/-!
# Reports on single files

What a file defines, read anew.
-/

namespace CodeAtlas.Report

def askedKind? : String → Option NodeKind
  | "classes" => some .classDecl
  | "functions" => some .function
  | "methods" => some .method
  | "endpoints" => some .endpoint
  | _ => none

def fileSymbolLine (n : Node) : String :=
  title n ++ " (" ++ span n ++ ")" ++ visibilityTag n ++
    (if n.traits.isAsync then " [async]" else "") ++ resultTag n ++ summaryTag n

def emissionReport (e : Extract.Emission) (asked : String) : String :=
  if asked == "imports" then
    let found := e.edges.filter (·.relation == .imports)
    let text := Text.join "\n" (found.map fun i => "import: " ++ i.context)
    if text.isEmpty then "No imports found." else text
  else
    orElse "No symbols found." ((e.nodes.filter fun n =>
      (askedKind? asked).all (n.kind == ·)).map fileSymbolLine)

def astQuery (r : Index.Readers) (g : Source.Grammar) (files : Files) (root : Path)
    (file asked : String) :
    Except Failure String := do
  let p := root.child file
  if !(← files.has p) then return "File not found: " ++ file
  match ← r.parseFile g files p with
  | none => return "Unsupported file type: " ++ file
  | some (parsed, language) => return emissionReport (← Index.symbolsIn language file parsed) asked

end CodeAtlas.Report
