import CodeAtlas.Extract.Callee
import CodeAtlas.Extract.Comments

/-!
# Symbols of Go files

Functions, methods with the type of their receiver, type declarations, imports, and the endpoints
that requests of the standard client address.
-/

namespace CodeAtlas.Extract.Go

open Source (Tree)

def importSpec (s : Site) (spec : Tree) : Reads Emission := do
  match ← s.parsed.childText? spec "interpreted_string_literal" with
  | none => return {}
  | some raw =>
    let path := Text.trimOf ['"'] raw
    let name ← s.parsed.childText spec "package_identifier"
    let context :=
      if name.isEmpty then "import \"" ++ path ++ "\""
      else "import " ++ name ++ " \"" ++ path ++ "\""
    return .ofEdge (s.importEdge (Node.makeId path "__file__") context)

def importDeclaration (s : Site) (t : Tree) : Reads Emission :=
  Emission.gather (importSpec s) (t.children.flatMap fun c =>
    if c.kind == "import_spec" then [c]
    else if c.kind == "import_spec_list" then c.children.filter fun i => i.kind == "import_spec"
    else [])

def returnType (s : Site) (t : Tree) : Reads (Option String) :=
  match t.children.find? fun c =>
      ["type_identifier", "pointer_type", "slice_type", "map_type", "qualified_type",
       "array_type"].contains c.kind with
  | some c => (s.parsed.text c).map some
  | none => .ok none

def requestCallees : List String :=
  ["http.Get", "http.Post", "http.Head", "http.NewRequest"]

def requests : RequestForm :=
  { isRequest := requestCallees.contains, arguments := "argument_list",
    literal := "interpreted_string_literal"
    quotes := ['"'], mark := "\"" }

def callEmission : Site → String → Tree → Reads Emission :=
  requests.callEmission

def function (s : Site) (t : Tree) : Reads Emission := do
  let name ← s.parsed.childText t "identifier"
  if name.isEmpty then return {}
  let parameters ← parameterNames s t
  let returns ← returnType s t
  let traits : Traits := { parameters := parameters, returnType := returns }
  let node := s.symbol .function name t traits
  let body ← walkBody (callEmission s node.id) (t.child? "block")
  return .ofNode node ++ body

def receiverTypes (receiver : Tree) : List Tree :=
  receiver.children.flatMap fun p =>
    if p.kind == "parameter_declaration" then
      p.children.filterMap fun c =>
        if c.kind == "type_identifier" then some c
        else if c.kind == "pointer_type" then c.child? "type_identifier"
        else none
    else []

def receiverType (s : Site) (t : Tree) : Reads String := do
  match t.child? "parameter_list" with
  | some receiver =>
    let names ← (receiverTypes receiver).mapM s.parsed.text
    return names.getLastD ""
  | none => return ""

/-- The parameter names of a method; the first list of parameters is the receiver. -/
def methodParameters (s : Site) (t : Tree) : Reads (List String) :=
  match t.children.filter fun c => c.kind == "parameter_list" with
  | _ :: list :: _ =>
    collect (fun p =>
      if p.kind == "parameter_declaration" then s.parsed.childText? p "identifier"
      else .ok none) list.children
  | _ => .ok []

def method (s : Site) (t : Tree) : Reads Emission := do
  let name ← s.parsed.childText t "field_identifier"
  if name.isEmpty then return {}
  let receiver ← receiverType s t
  let fullName := if receiver.isEmpty then name else receiver ++ "." ++ name
  let parameters ← methodParameters s t
  let returns ← returnType s t
  let traits : Traits := { parameters := parameters, returnType := returns }
  let node := s.symbol .method fullName t traits
  let defined :=
    if receiver.isEmpty then [] else [definesEdge (s.idOf receiver) node.id]
  let body ← walkBody (callEmission s node.id) (t.child? "block")
  return { nodes := [node], edges := defined } ++ body

def typeSpec (s : Site) (t : Tree) : Reads Emission := do
  let name ← s.parsed.childText t "type_identifier"
  if name.isEmpty then return {}
  else if t.hasChild "interface_type" then return .ofNode (s.symbol .interfaceDecl name t)
  else if t.hasChild "struct_type" then return .ofNode (s.symbol .classDecl name t {} "struct")
  else return .ofNode (s.symbol .classDecl name t {} "type alias")

def typeDeclaration (s : Site) (t : Tree) : Reads Emission :=
  Emission.gather (typeSpec s) (t.children.filter fun c => c.kind == "type_spec")

def declaration (s : Site) (t : Tree) : Reads Emission :=
  match t.kind with
  | "import_declaration" => importDeclaration s t
  | "function_declaration" => function s t
  | "method_declaration" => method s t
  | "type_declaration" => typeDeclaration s t
  | _ => .ok {}

def extract (s : Site) : Reads Emission := do
  withComments s ["comment"] (← Emission.gather (declaration s) s.parsed.root.children)

end CodeAtlas.Extract.Go
