import CodeAtlas.Extract.Callee
import CodeAtlas.Extract.Comments

/-!
# Symbols of PHP files

Classes with their methods and functions, named in full with the namespace declared last before
them; imported names; and the endpoints that route attributes declare.
-/

namespace CodeAtlas.Extract.Php

open Source (Tree)

def qualify (namespaceName name : String) : String :=
  if namespaceName.isEmpty then name else namespaceName ++ "\\" ++ name

def firstPresent {α β : Type} (f : α → Reads (Option β)) : List α → Reads (Option β)
  | [] => .ok none
  | a :: rest => do
    match ← f a with
    | some b => return some b
    | none => firstPresent f rest

def argumentString (s : Site) (arg : Tree) : Reads (Option String) := do
  let literal :=
    if arg.kind == "argument" then arg.child? "string"
    else if arg.kind == "string" then some arg
    else none
  match literal with
  | some c =>
    if s.parsed.isEmpty c then return none
    else return some (Text.trimOf ['\'', '"'] (← s.parsed.text c))
  | none => return none

def attributeRoute (s : Site) (attr : Tree) : Reads (Option String) := do
  if Text.contains (← s.parsed.text attr) "Route" then
    match attr.child? "arguments" with
    | some args => firstPresent (argumentString s) args.children
    | none => return none
  else return none

def declaredRoute (s : Site) (t : Tree) : Reads (Option String) :=
  match t.child? "attribute_list" with
  | none => .ok none
  | some list =>
    let groups := list.children.filter fun g => g.kind == "attribute_group"
    let attributes := groups.flatMap fun g => g.children.filter fun a => a.kind == "attribute"
    firstPresent (attributeRoute s) attributes

/-- The visibility of a method, which is public unless a modifier says otherwise. -/
def visibility (s : Site) (t : Tree) : Reads String :=
  match t.child? "visibility_modifier" with
  | some c => if s.parsed.isEmpty c then .ok "public" else s.parsed.text c
  | none => .ok "public"

def returnType (s : Site) (t : Tree) : Reads (Option String) :=
  match (t.children.dropWhile fun c => c.kind != ":").find? fun c =>
      ["named_type", "primitive_type", "optional_type"].contains c.kind with
  | some c => if s.parsed.isEmpty c then .ok none else (s.parsed.text c).map some
  | none => .ok none

def calleeText (s : Site) (t : Tree) : Reads String := do
  match t.kind with
  | "function_call_expression" =>
    match t.children.head? with
    | some callee => s.parsed.text callee
    | none => return ""
  | "member_call_expression" => s.parsed.childText t "name"
  | "scoped_call_expression" =>
    let parts ← (t.children.filter fun c => c.kind == "name" || c.kind == "qualified_name").mapM
      s.parsed.text
    return Text.join "::" parts
  | _ => return ""

/-- The edge of the call at a tree node, if it is one. A call without text keeps its whole
callee. -/
def callEdges (s : Site) (source : String) (t : Tree) : Reads Emission := do
  match resolveCallee (← calleeText s t) with
  | none => return {}
  | some callee =>
    let text ← s.parsed.text t
    let context := if text.isEmpty then callee else Text.cut contextLength text
    return .ofEdge (callEdge source callee context)

def method (s : Site) (className classId : String) (t : Tree) : Reads Emission := do
  let name ← s.parsed.childText t "name"
  if name.isEmpty then return {}
  let visible ← visibility s t
  let parameters ← parameterNames s t
  let returns ← returnType s t
  let route := nonEmpty? (← declaredRoute s t)
  let traits : Traits :=
    { visibility := some visible, parameters := parameters, returnType := returns }
  let node := s.symbol .method (className ++ "::" ++ name) t traits (routeSummary route)
  let calls ← walkBody (callEdges s node.id) (t.child? "compound_statement")
  return { nodes := [node], edges := [definesEdge classId node.id] } ++
    routeEmission s node.id t route ++ calls

def classDeclaration (s : Site) (namespaceName : String) (t : Tree) : Reads Emission := do
  let name ← s.parsed.childText t "name"
  if name.isEmpty then return {}
  let fullName := qualify namespaceName name
  let route := nonEmpty? (← declaredRoute s t)
  let node := s.symbol .classDecl fullName t {} (routeSummary route)
  let members := match t.child? "declaration_list" with
    | some list => list.children.filter fun m => m.kind == "method_declaration"
    | none => []
  let methods ← Emission.gather (method s fullName node.id) members
  return .ofNode node ++ routeEmission s node.id t route ++ methods

def function (s : Site) (namespaceName : String) (t : Tree) : Reads Emission := do
  let name ← s.parsed.childText t "name"
  if name.isEmpty then return {}
  let parameters ← parameterNames s t
  let returns ← returnType s t
  let traits : Traits := { parameters := parameters, returnType := returns }
  let node := s.symbol .function (qualify namespaceName name) t traits
  let calls ← walkBody (callEdges s node.id) (t.child? "compound_statement")
  return .ofNode node ++ calls

def useDeclaration (s : Site) (t : Tree) : Reads Emission := do
  let imported ← s.parsed.childText t "namespace_use_clause"
  if imported.isEmpty then return {}
  else return .ofEdge (s.importEdge (Node.makeId "" imported) ("use " ++ imported))

def statements (s : Site) : (namespaceName : String) → List Tree → Reads Emission
  | _, [] => .ok {}
  | namespaceName, t :: rest => do
    if t.kind == "namespace_definition" then
      statements s (← s.parsed.childText t "namespace_name") rest
    else
      let first ← match t.kind with
        | "namespace_use_declaration" => useDeclaration s t
        | "class_declaration" => classDeclaration s namespaceName t
        | "function_definition" => function s namespaceName t
        | _ => .ok {}
      let others ← statements s namespaceName rest
      return first ++ others

def extract (s : Site) : Reads Emission := do
  withComments s ["comment"] (← statements s "" s.parsed.root.children)

end CodeAtlas.Extract.Php
