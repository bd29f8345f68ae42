import CodeAtlas.Data.OrderedMap
import CodeAtlas.Report.Symbol

/-!
# Reports on directories and files

The symbols below a directory, file by file, the files of the index, and the comments in them.
-/

namespace CodeAtlas.Report

structure Listing where
  lines : List String := []
  shown : Nat := 0

def methodsPerClass : Nat := 5

def classLine (n : Node) : String :=
  "  class: " ++ n.name ++ visibilityTag n ++ summaryTag n

def callableLine (indent : String) (n : Node) : String :=
  indent ++ title n ++ visibilityTag n ++ resultTag n ++ summaryTag n

def Listing.addClass (most : Int) (methods : List Node) (l : Listing) (n : Node) : Listing :=
  if most ≤ l.shown then l
  else
    let under := if (l.shown : Int) + 1 < most then methods.take methodsPerClass else []
    let more := if methodsPerClass < methods.length then
        ["    + " ++ toString (methods.length - methodsPerClass) ++ " more methods"]
      else []
    ⟨l.lines ++ [classLine n] ++ under.map (callableLine "    ") ++ more,
      l.shown + 1 + under.length⟩

def Listing.add (most : Int) (line : Node → String) (l : Listing) (n : Node) : Listing :=
  if most ≤ l.shown then l else ⟨l.lines ++ [line n], l.shown + 1⟩

def fileListing (most : Int) (nodes : List Node) : Listing :=
  let ofKind (k : NodeKind) : List Node := nodes.filter (·.kind == k)
  let others :=
    nodes.filter fun n => !([.classDecl, .method, .function] : List NodeKind).contains n.kind
  let l := (ofKind .classDecl).foldl (Listing.addClass most (ofKind .method)) {}
  let l := (ofKind .function).foldl (Listing.add most (callableLine "  ")) l
  others.foldl (Listing.add most fun n => "  " ++ title n ++ " (line " ++ toString n.loc.first ++
    ")") l

def fileLines (most : Int) (file : String) (nodes : List Node) : List String :=
  let language := ((nodes.head?).map (·.language)).getD ""
  let more := if most < nodes.length then
      ["  ... and " ++ toString (nodes.length - most) ++ " more symbols"]
    else []
  [file ++ "  [" ++ language ++ "]"] ++ (fileListing most nodes).lines ++ more ++ [""]

/-- Whether a file lies below a directory, or its path starts with the name of the directory. -/
def isBelow (directory file : String) : Bool :=
  Text.startsWith file (Text.trimRightOf ['/'] directory ++ "/") || Text.startsWith file directory

def symbolsBelow (nodes : List Node) (directory kind language : String) :
    OrderedMap String (List Node) :=
  let found := (symbolsOf nodes).filter fun n =>
    isBelow directory n.loc.file && passesExact kind n.kind.word && passesExact language n.language
  OrderedMap.groupBy (·.loc.file) found

def sortTexts (texts : List String) : List String :=
  texts.mergeSort fun a b => !(b < a)

def moduleSummary (nodes : List Node) (directory : String) (most : Int) (kind language : String) :
    String :=
  let files := symbolsBelow nodes directory kind language
  if files.entries.isEmpty then "No symbols found under '" ++ directory ++ "'."
  else
    let total := files.values.flatten.length
    let header := "module: " ++ directory ++ "  (" ++ toString files.entries.length ++ " files, " ++
      toString total ++ " symbols)\n"
    Text.trimRight (Text.join "\n" (header :: (sortTexts files.keys).flatMap fun f =>
      fileLines most f ((files.get? f).getD [])))

def listFiles (nodes : List Node) (language : String) : String :=
  let files :=
    OrderedMap.groupBy (·.loc.file) (nodes.filter fun n => passesExact language n.language)
  orElse "No files found." ((sortTexts files.keys).map fun f =>
    let languages := sortTexts (distinct (((files.get? f).getD []).map (·.language)))
    f ++ " [" ++ Text.join ", " languages ++ "]")

def commentLines (c : Node) : List String :=
  let owner := if c.traits.parentSymbol.isEmpty then "[file-level]  "
    else "[parent: " ++ c.traits.parentSymbol ++ "]  "
  [owner ++ place c, "  " ++ c.name]

def searchComments (nodes : List Node) (text symbol file : String) (limit : Int) : String :=
  let found := nodes.filter fun n =>
    n.isComment && passesFilter text n.name &&
      (symbol.isEmpty || Text.containsWord symbol n.traits.parentSymbol) &&
        passesFilter file n.loc.file
  match leading limit found with
  | [] => "No comments found matching the given filters."
  | shown =>
    Text.join "\n" ((toString shown.length ++ " comment(s) found:\n") :: shown.flatMap commentLines)

end CodeAtlas.Report
