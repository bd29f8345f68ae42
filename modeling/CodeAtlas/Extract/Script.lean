import CodeAtlas.Extract.Callee
import CodeAtlas.Extract.Comments

/-!
# Symbols of JavaScript and TypeScript files

Both languages are read by the same rules. A typed dialect also has interfaces, enumerations, return
types and access modifiers, may name a class by a type identifier, and lists the default import
among the imported names.

Requests made with `fetch` and `axios` become endpoint nodes, with one identifier in every file.
-/

namespace CodeAtlas.Extract.Script

open Source (Tree)

inductive Dialect where
  | plain
  | typed
deriving DecidableEq, Repr

def Dialect.isTyped : Dialect → Bool
  | .plain => false
  | .typed => true

def quotes : List Char := ['\'', '"']

def importedNames (s : Site) (d : Dialect) (clause : Tree) : Reads (List String) := do
  let named ← match clause.child? "named_imports" with
    | some list =>
      collect (fun spec =>
        if spec.kind == "import_specifier" then s.parsed.childText? spec "identifier"
        else .ok none) list.children
    | none => .ok []
  if d.isTyped then
    let default ← s.parsed.childText? clause "identifier"
    return named ++ default.toList
  else return named

def importStatement (s : Site) (d : Dialect) (t : Tree) : Reads Emission := do
  match ← s.parsed.childText? t "string" with
  | none => return {}
  | some raw =>
    let path := Text.trimOf quotes raw
    let names ← match t.child? "import_clause" with
      | some clause => importedNames s d clause
      | none => .ok []
    let context :=
      "import \x7b" ++ Text.join ", " names ++ "\x7d from '" ++ path ++ "'"
    return .ofEdge (s.importEdge (Node.makeId path "__file__") context)

def annotatedType (s : Site) (d : Dialect) (t : Tree) : Reads (Option String) :=
  if d.isTyped then
    match (t.children.filter fun c => c.kind == "type_annotation").findSome? fun c =>
        c.children.find? fun sub => sub.kind != ":" with
    | some c => (s.parsed.text c).map some
    | none => .ok none
  else .ok none

def isRequest (calleeText : String) : Bool :=
  calleeText == "fetch" || Text.startsWith calleeText "axios."

def requests : RequestForm :=
  { isRequest := isRequest, arguments := "arguments", literal := "string", quotes := quotes,
    mark := "'" }

def callEmission : Site → String → Tree → Reads Emission :=
  requests.callEmission

def functionAt (s : Site) (d : Dialect) (name : String) (t decl : Tree) : Reads Emission := do
  let parameters ← parameterNames s decl
  let returns ← annotatedType s d decl
  let traits : Traits :=
    { isAsync := decl.hasChild "async", parameters := parameters, returnType := returns }
  let node := s.symbol .function name t traits
  let body ← walkBody (callEmission s node.id) (decl.child? "statement_block")
  return .ofNode node ++ body

def functionDeclaration (s : Site) (d : Dialect) (t : Tree) : Reads Emission := do
  let name ← s.parsed.childText t "identifier"
  if name.isEmpty then return {} else functionAt s d name t t

def accessModifier (s : Site) (d : Dialect) : List Tree → (found : Option String) →
    Reads (Option String)
  | [], found => .ok found
  | c :: rest, found => do
    if d.isTyped && c.kind == "accessibility_modifier" then
      accessModifier s d rest (some (← s.parsed.text c))
    else accessModifier s d rest found

def method (s : Site) (d : Dialect) (className classId : String) (t : Tree) : Reads Emission := do
  let name ← s.parsed.childText t "property_identifier"
  if name.isEmpty then return {}
  let parameters ← parameterNames s t
  let returns ← annotatedType s d t
  let visibility ← accessModifier s d t.children none
  let traits : Traits :=
    { visibility := visibility, isAsync := t.hasChild "async", parameters := parameters
      returnType := returns }
  let node := s.symbol .method (className ++ "." ++ name) t traits
  let body ← walkBody (callEmission s node.id) (t.child? "statement_block")
  return { nodes := [node], edges := [definesEdge classId node.id] } ++ body

def className (s : Site) (d : Dialect) (t : Tree) : Reads String := do
  if d.isTyped then
    let name ← s.parsed.childText t "type_identifier"
    if name.isEmpty then s.parsed.childText t "identifier" else return name
  else s.parsed.childText t "identifier"

def classDeclaration (s : Site) (d : Dialect) (t : Tree) : Reads Emission := do
  let name ← className s d t
  if name.isEmpty then return {}
  let node := s.symbol .classDecl name t
  let members := match t.child? "class_body" with
    | some body => body.children.filter fun m => m.kind == "method_definition"
    | none => []
  let methods ← Emission.gather (method s d name node.id) members
  return .ofNode node ++ methods

def variableFunctions (s : Site) (d : Dialect) (t : Tree) : Reads Emission :=
  Emission.gather (fun c => do
    if c.kind != "variable_declarator" then return {}
    match c.child? "identifier", (c.child? "arrow_function").or
      (c.child? "function_expression") with
    | some nameTree, some decl =>
      if s.parsed.isEmpty nameTree then return {}
      functionAt s d (← s.parsed.text nameTree) t decl
    | _, _ => return {}) t.children

def interfaceDeclaration (s : Site) (t : Tree) : Reads Emission := do
  let name ← s.parsed.childText t "type_identifier"
  if name.isEmpty then return {} else return .ofNode (s.symbol .interfaceDecl name t)

def enumDeclaration (s : Site) (t : Tree) : Reads Emission := do
  let name ← s.parsed.childText t "identifier"
  if name.isEmpty then return {} else return .ofNode (s.symbol .classDecl name t {} "enum")

def exportedName (target : String) : Option String :=
  if target == "module.exports" then some "__default__"
  else if Text.startsWith target "exports." then some (Text.skip "exports.".length target)
  else none

/-- A function that is assigned to an export. A name of its own goes before the exported one. -/
def exportAssignment (s : Site) (d : Dialect) (t : Tree) : Reads Emission := do
  match t.child? "assignment_expression" with
  | none => return {}
  | some assign =>
    match assign.children.head? with
    | none => return {}
    | some left =>
      match exportedName (← s.parsed.text left) with
      | none => return {}
      | some exported =>
        match assign.children.find? fun c =>
            ["arrow_function", "function_expression", "function"].contains c.kind with
        | none => return {}
        | some decl =>
          let own ← s.parsed.childText? decl "identifier"
          functionAt s d (own.getD exported) t decl

def declaration (s : Site) (d : Dialect) (t : Tree) : Reads Emission :=
  match t.kind with
  | "function_declaration" => functionDeclaration s d t
  | "class_declaration" => classDeclaration s d t
  | "lexical_declaration" => variableFunctions s d t
  | "variable_declaration" => variableFunctions s d t
  | "interface_declaration" => if d.isTyped then interfaceDeclaration s t else .ok {}
  | "enum_declaration" => if d.isTyped then enumDeclaration s t else .ok {}
  | _ => .ok {}

def statement (s : Site) (d : Dialect) (t : Tree) : Reads Emission :=
  match t.kind with
  | "import_statement" => importStatement s d t
  | "export_statement" => Emission.gather (declaration s d) t.children
  | "expression_statement" => exportAssignment s d t
  | _ => declaration s d t

def extract (d : Dialect) (s : Site) : Reads Emission := do
  withComments s ["comment"] (← Emission.gather (statement s d) s.parsed.root.children)

end CodeAtlas.Extract.Script
