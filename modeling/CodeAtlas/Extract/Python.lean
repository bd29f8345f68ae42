import CodeAtlas.Extract.Callee
import CodeAtlas.Extract.Comments
import CodeAtlas.Text.Case

/-!
# Symbols of Python files

Top-level classes with their methods, top-level functions, imports, and the endpoints that route
decorators declare.
-/

namespace CodeAtlas.Extract.Python

open Source (Tree)

def routeObjects : List String :=
  ["app", "router", "blueprint", "bp", "api"]

def routeMethods : List String :=
  ["route", "get", "post", "put", "patch", "delete", "head", "options"]

def importStatement (s : Site) (t : Tree) : Reads Emission :=
  Emission.gather (fun c => do
    if c.kind == "dotted_name" then
      let name ← s.parsed.text c
      if name.isEmpty then return {}
      else return .ofEdge (s.importEdge (Node.makeId name "__file__") ("import " ++ name))
    else return {}) t.children

/-- The module and the names of `from m import a, b`, read off the remaining children. A relative
module replaces one that was read before it. -/
def fromParts (s : Site) : List Tree → (moduleName : String) → (names : List String) →
    Reads (String × List String)
  | [], moduleName, names => .ok (moduleName, names)
  | c :: rest, moduleName, names => do
    if c.kind == "dotted_name" then
      let text ← s.parsed.text c
      if moduleName.isEmpty then fromParts s rest text names
      else fromParts s rest moduleName (names ++ [text])
    else if c.kind == "relative_import" then
      fromParts s rest (← s.parsed.text c) names
    else
      fromParts s rest moduleName names

def fromImport (s : Site) (t : Tree) : Reads Emission := do
  let (moduleName, names) ← fromParts s t.children "" []
  if moduleName.isEmpty then return {}
  else
    let context :=
      if names.isEmpty then "import " ++ moduleName
      else "from " ++ moduleName ++ " import " ++ Text.join ", " names
    return .ofEdge (s.importEdge (Node.makeId moduleName "__file__") context)

def returnType (s : Site) (t : Tree) : Reads (Option String) :=
  match (t.children.dropWhile fun c => c.kind != "->").find? fun c => c.kind == "type" with
  | some c => (s.parsed.text c).map some
  | none => .ok none

def callEdges : Site → String → Tree → Reads Emission :=
  callOfKind "call"

def method (s : Site) (className classId : String) (t : Tree) : Reads Emission := do
  let name ← s.parsed.childText t "identifier"
  if name.isEmpty then return {}
  let parameters ← parameterNames s t
  let returns ← returnType s t
  let traits : Traits :=
    { isAsync := t.hasChild "async"
      parameters := parameters.filter fun p => p != "self" && p != "cls"
      returnType := returns }
  let node := s.symbol .method (className ++ "." ++ name) t traits
  let calls ← walkBody (callEdges s node.id) (t.child? "block")
  return { nodes := [node], edges := [definesEdge classId node.id] } ++ calls

def memberFunction? (member : Tree) : Option Tree :=
  if member.kind == "function_definition" then some member
  else if member.kind == "decorated_definition" then member.child? "function_definition"
  else none

def classDefinition (s : Site) (t : Tree) : Reads Emission := do
  let name ← s.parsed.childText t "identifier"
  if name.isEmpty then return {}
  let node := s.symbol .classDecl name t
  let members := match t.child? "block" with
    | some body => body.children.filterMap memberFunction?
    | none => []
  let methods ← Emission.gather (method s name node.id) members
  return .ofNode node ++ methods

def function (s : Site) (route : Option String) (t : Tree) : Reads Emission := do
  let name ← s.parsed.childText t "identifier"
  if name.isEmpty then return {}
  let parameters ← parameterNames s t
  let returns ← returnType s t
  let route := nonEmpty? route
  let traits : Traits :=
    { isAsync := t.hasChild "async", parameters := parameters, returnType := returns }
  let node := s.symbol .function name t traits (routeSummary route)
  let calls ← walkBody (callEdges s node.id) (t.child? "block")
  return .ofNode node ++ calls ++ routeEmission s node.id t route

def firstStringArgument (s : Site) (call : Tree) : Reads (Option String) :=
  match (call.child? "argument_list").bind fun args => args.child? "string" with
  | some c => do return some (Text.trimOf ['\'', '"'] (← s.parsed.text c))
  | none => .ok none

def decoratorRoute (s : Site) (decorator : Tree) : Reads (Option String) := do
  match decorator.child? "call" with
  | none => return none
  | some call =>
    match call.children.head? with
    | none => return none
    | some callee =>
      if callee.kind != "attribute" then return none
      match callee.child? "identifier", callee.children.getLast? with
      | some object, some method =>
        if method.kind != "identifier" then return none
        let object := Text.lower (← s.parsed.text object)
        let method := Text.lower (← s.parsed.text method)
        if routeObjects.contains object && routeMethods.contains method then
          firstStringArgument s call
        else return none
      | _, _ => return none

/-- The route of the last decorator; a decorator that registers none takes back an earlier one. -/
def lastRoute (s : Site) : List Tree → (route : Option String) → Reads (Option String)
  | [], route => .ok route
  | c :: rest, route => do
    if c.kind == "decorator" then lastRoute s rest (← decoratorRoute s c)
    else lastRoute s rest route

def decorated (s : Site) (t : Tree) : Reads Emission := do
  let route ← lastRoute s t.children none
  match t.child? "function_definition", t.child? "class_definition" with
  | some f, _ => function s route f
  | none, some c => classDefinition s c
  | none, none => return {}

def statement (s : Site) (t : Tree) : Reads Emission :=
  match t.kind with
  | "import_statement" => importStatement s t
  | "import_from_statement" => fromImport s t
  | "class_definition" => classDefinition s t
  | "function_definition" => function s none t
  | "decorated_definition" => decorated s t
  | _ => .ok {}

def extract (s : Site) : Reads Emission := do
  withComments s ["comment"] (← Emission.gather (statement s) s.parsed.root.children)

end CodeAtlas.Extract.Python
