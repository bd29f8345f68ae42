import CodeAtlas.Extract.Callee
import CodeAtlas.Extract.Comments

/-!
# Symbols of C# files

Classes, also nested ones, with their methods and constructors; interfaces; `using` directives; and
the endpoints that action attributes declare. A type is named with the namespace declaration that
directly holds it and with the classes around it.
-/

namespace CodeAtlas.Extract.CSharp

open Source (Tree)

def verbAttributes : List String :=
  ["HttpGet", "HttpPost", "HttpPut", "HttpDelete", "HttpPatch", "HttpHead", "HttpOptions"]

def qualify (outer name : String) : String :=
  if outer.isEmpty then name else outer ++ "." ++ name

def identifier (s : Site) (t : Tree) : Reads String :=
  match t.children.find? fun c => c.kind == "identifier" && !s.parsed.isEmpty c with
  | some c => s.parsed.text c
  | none => .ok ""

def modifier? (s : Site) (accept : String → Bool) : List Tree → Reads (Option String)
  | [] => .ok none
  | c :: rest => do
    if c.kind == "modifier" && !s.parsed.isEmpty c then
      let text ← s.parsed.text c
      if accept text then return some text else modifier? s accept rest
    else modifier? s accept rest

def visibility (s : Site) (t : Tree) : Reads (Option String) :=
  modifier? s (["public", "private", "protected", "internal"].contains ·) t.children

def parameterName (s : Site) (p : Tree) : Reads (Option String) :=
  if p.kind == "parameter" then
    match p.children.reverse.find? fun c => c.kind == "identifier" && !s.parsed.isEmpty c with
    | some c => (s.parsed.text c).map some
    | none => .ok none
  else .ok none

def parameters (s : Site) (t : Tree) : Reads (List String) :=
  match t.child? "parameter_list" with
  | some list => collect (parameterName s) list.children
  | none => .ok []

def notTypeKinds : List String :=
  ["modifier", "attribute_list", "class", "interface", "identifier", "parameter_list", "block",
   "arrow_expression_clause", ";"]

def returnType (s : Site) (t : Tree) : Reads (Option String) :=
  let front := t.children.takeWhile fun c => c.kind != "identifier"
  match (front.filter fun c => !notTypeKinds.contains c.kind).getLast? with
  | some c => (s.parsed.text c).map some
  | none => .ok none

def literalText (s : Site) (c : Tree) : Reads (Option String) := do
  if s.parsed.isEmpty c then return none
  else if c.kind == "string_literal" || c.kind == "verbatim_string_literal" then
    return some (Text.trimOf ['"'] (Text.trimOf ['"', '@', '$'] (← s.parsed.text c)))
  else if c.kind == "literal_expression" then
    return some (Text.trimOf ['"', '\''] (← s.parsed.text c))
  else return none

def partsLiteral (s : Site) : List Tree → Reads (Option String)
  | [] => .ok none
  | c :: rest => do
    match ← literalText s c with
    | some text => return some text
    | none => partsLiteral s rest

def argumentLiteral (s : Site) : List Tree → Reads (Option String)
  | [] => .ok none
  | c :: rest => do
    if c.kind == "attribute_argument" then
      match ← partsLiteral s c.children with
      | some text => return some text
      | none => argumentLiteral s rest
    else if (c.kind == "string_literal" || c.kind == "literal_expression") &&
      !s.parsed.isEmpty c then
      return some (Text.trimOf ['"', '\''] (← s.parsed.text c))
    else argumentLiteral s rest

structure RouteParts where
  verb : Option String := none
  path : Option String := none

/-- Reads one attribute. A list of arguments replaces the path, even if it holds no literal. -/
def readAttribute (s : Site) (parts : RouteParts) (attr : Tree) : Reads RouteParts := do
  let name ← identifier s attr
  let isVerb := verbAttributes.contains name
  if isVerb || name == "Route" then
    let path ← match attr.child? "attribute_argument_list" with
      | some args => argumentLiteral s args.children
      | none => .ok parts.path
    return { verb := if isVerb then some name else parts.verb, path := path }
  else return parts

def declaredRoute (s : Site) (t : Tree) : Reads (Option String) := do
  let lists := t.children.filter fun c => c.kind == "attribute_list"
  let attributes := lists.flatMap fun l => l.children.filter fun a => a.kind == "attribute"
  let parts ← attributes.foldlM (readAttribute s) {}
  match parts.verb with
  | none => return none
  | some verb => return some ((nonEmpty? parts.path).getD ("/" ++ verb))

def callEdges : Site → String → Tree → Reads Emission :=
  callOfKind "invocation_expression"

def method (s : Site) (className classId : String) (t : Tree) : Reads Emission := do
  let name ← identifier s t
  if name.isEmpty then return {}
  let visible ← visibility s t
  let async ← modifier? s (· == "async") t.children
  let names ← parameters s t
  let returns ← returnType s t
  let route ← declaredRoute s t
  let traits : Traits :=
    { visibility := visible, isAsync := async.isSome, parameters := names, returnType := returns }
  let node := s.symbol .method (className ++ "." ++ name) t traits
  let block ← walkBody (callEdges s node.id) (t.child? "block")
  let arrow ← walkBody (callEdges s node.id) (t.child? "arrow_expression_clause")
  return { nodes := [node], edges := [definesEdge classId node.id] } ++
    routeEmission s node.id t route ++ block ++ arrow

/-- A constructor. It is told from a method of its name by its identifier only. -/
def constructor (s : Site) (className classId : String) (t : Tree) : Reads Emission := do
  let name ← identifier s t
  if name.isEmpty then return {}
  let visible ← visibility s t
  let names ← parameters s t
  let fullName := className ++ "." ++ name
  let traits : Traits := { visibility := visible, parameters := names }
  let node : Node :=
    { s.symbol .method fullName t traits with id := s.idOf (fullName ++ ".__ctor__") }
  let calls ← walkBody (callEdges s node.id) (t.child? "block")
  return { nodes := [node], edges := [definesEdge classId node.id] } ++ calls

def interfaceDeclaration (s : Site) (outer : String) (t : Tree) : Reads Emission := do
  let name ← identifier s t
  if name.isEmpty then return {}
  else
    return .ofNode
      (s.symbol .interfaceDecl (qualify outer name) t { visibility := some "public" })

mutual

def classDeclaration (s : Site) (outer : String) : Tree → Reads Emission
  | .node kind start stop children => do
    let t : Tree := .node kind start stop children
    let name ← identifier s t
    if name.isEmpty then return {}
    let fullName := qualify outer name
    let visible ← visibility s t
    let node := s.symbol .classDecl fullName t { visibility := visible }
    let members ← classBody s fullName node.id children
    return .ofNode node ++ members

def classBody (s : Site) (fullName classId : String) : List Tree → Reads Emission
  | [] => .ok {}
  | .node "declaration_list" _ _ members :: _ => classMembers s fullName classId members
  | _ :: rest => classBody s fullName classId rest

def classMembers (s : Site) (fullName classId : String) : List Tree → Reads Emission
  | [] => .ok {}
  | m :: rest => do
    let first ← (match m.kind with
      | "method_declaration" => method s fullName classId m
      | "constructor_declaration" => constructor s fullName classId m
      | "class_declaration" => classDeclaration s fullName m
      | _ => .ok {})
    let others ← classMembers s fullName classId rest
    return first ++ others

end

def namespaceName (s : Site) (children : List Tree) : Reads String :=
  match children.find? fun c => c.kind == "qualified_name" || c.kind == "identifier" with
  | some c => s.parsed.text c
  | none => .ok ""

mutual

def namespaceDeclaration (s : Site) : Tree → Reads Emission
  | .node _ _ _ children => do
    let name ← namespaceName s children
    namespaceBody s name children

def namespaceBody (s : Site) (name : String) : List Tree → Reads Emission
  | [] => .ok {}
  | .node "declaration_list" _ _ members :: _ => namespaceMembers s name members
  | _ :: rest => namespaceBody s name rest

/-- What the members of a namespace emit. A nested namespace is named by itself only. -/
def namespaceMembers (s : Site) (name : String) : List Tree → Reads Emission
  | [] => .ok {}
  | m :: rest => do
    let first ← (match m.kind with
      | "class_declaration" => classDeclaration s name m
      | "interface_declaration" => interfaceDeclaration s name m
      | "namespace_declaration" => namespaceDeclaration s m
      | _ => .ok {})
    let others ← namespaceMembers s name rest
    return first ++ others

end

/-! ## Members

The readers above go down a declaration as structural recursion wants it. What they read are the
members of its body, one after the other. -/

def bodyMembers (children : List Tree) : List Tree :=
  ((children.find? fun c => c.kind == "declaration_list").map Tree.children).getD []

theorem exists_of_mem_bodyMembers {children : List Tree} {m : Tree}
    (hm : m ∈ bodyMembers children) :
    ∃ body ∈ children, m ∈ body.children := by
  unfold bodyMembers at hm
  cases hbody : children.find? fun c => c.kind == "declaration_list" with
  | none => simp [hbody] at hm
  | some body => exact ⟨body, List.mem_of_find?_eq_some hbody, by simpa [hbody] using hm⟩

/-- What holds of a declaration if it holds of the members of its body holds of every
declaration. -/
theorem member_induction {motive : Tree → Prop}
    (step : ∀ t : Tree, (∀ m ∈ bodyMembers t.children, motive m) → motive t) (t : Tree) :
    motive t := by
  refine step t fun m hm => ?_
  have hsize : sizeOf m < sizeOf t := by
    obtain ⟨body, hbody, hm⟩ := exists_of_mem_bodyMembers hm
    cases t with
    | node _ _ _ children =>
      cases body with
      | node _ _ _ members =>
        have hmember := List.sizeOf_lt_of_mem hm
        have hchild := List.sizeOf_lt_of_mem hbody
        simp [Tree.children] at hmember hchild ⊢
        omega
  exact member_induction step m
termination_by sizeOf t

def classMember (s : Site) (fullName classId : String) (m : Tree) : Reads Emission :=
  match m.kind with
  | "method_declaration" => method s fullName classId m
  | "constructor_declaration" => constructor s fullName classId m
  | "class_declaration" => classDeclaration s fullName m
  | _ => .ok {}

def namespaceMember (s : Site) (name : String) (m : Tree) : Reads Emission :=
  match m.kind with
  | "class_declaration" => classDeclaration s name m
  | "interface_declaration" => interfaceDeclaration s name m
  | "namespace_declaration" => namespaceDeclaration s m
  | _ => .ok {}

theorem classMembers_eq (s : Site) (fullName classId : String) (ms : List Tree) :
    classMembers s fullName classId ms = Emission.gather (classMember s fullName classId) ms := by
  induction ms with
  | nil => rw [classMembers, Emission.gather]
  | cons m rest ih =>
    rw [classMembers, Emission.gather, ih]
    rfl

theorem namespaceMembers_eq (s : Site) (name : String) (ms : List Tree) :
    namespaceMembers s name ms = Emission.gather (namespaceMember s name) ms := by
  induction ms with
  | nil => rw [namespaceMembers, Emission.gather]
  | cons m rest ih =>
    rw [namespaceMembers, Emission.gather, ih]
    rfl

/-- A search for the first declaration list ends in its members. -/
theorem body_eq {α : Type} {body members : List Tree → α} (hnil : body [] = members [])
    (hlist : ∀ start stop ms rest, body (.node "declaration_list" start stop ms :: rest) =
    members ms)
    (hother : ∀ t rest, t.kind ≠ "declaration_list" → body (t :: rest) = body rest)
    (ts : List Tree) :
    body ts = members (bodyMembers ts) := by
  induction ts with
  | nil => exact hnil
  | cons t rest ih =>
    by_cases hkind : t.kind = "declaration_list"
    · cases t with
      | node kind start stop ms =>
        obtain rfl : kind = "declaration_list" := hkind
        exact hlist start stop ms rest
    · rw [hother t rest hkind, ih]
      simp [bodyMembers, hkind]

theorem classDeclaration_eq (s : Site) (outer : String) (t : Tree) :
    classDeclaration s outer t = (do
      let name ← identifier s t
      if name.isEmpty then return {}
      let visible ← visibility s t
      let node := s.symbol .classDecl (qualify outer name) t { visibility := visible }
      let members ← Emission.gather (classMember s (qualify outer name) node.id)
        (bodyMembers t.children)
      return .ofNode node ++ members) := by
  have hbody (fullName classId : String) (ts : List Tree) :
      classBody s fullName classId ts = Emission.gather (classMember s fullName classId)
        (bodyMembers ts) := by
    refine body_eq (by rw [classBody]; rfl) (fun start stop ms rest => ?_) (fun t rest hkind => ?_)
      ts
    · rw [classBody, classMembers_eq]
    · rw [classBody]
      rintro start stop ms rfl
      exact hkind rfl
  cases t with
  | node kind start stop children =>
    rw [classDeclaration]
    simp only [hbody]
    rfl

theorem namespaceDeclaration_eq (s : Site) (t : Tree) :
    namespaceDeclaration s t = (do
      let name ← namespaceName s t.children
      Emission.gather (namespaceMember s name) (bodyMembers t.children)) := by
  have hbody (name : String) (ts : List Tree) :
      namespaceBody s name ts = Emission.gather (namespaceMember s name) (bodyMembers ts) := by
    refine body_eq (by rw [namespaceBody]; rfl) (fun start stop ms rest => ?_)
      (fun t rest hkind => ?_) ts
    · rw [namespaceBody, namespaceMembers_eq]
    · rw [namespaceBody]
      rintro start stop ms rfl
      exact hkind rfl
  cases t with
  | node kind start stop children =>
    rw [namespaceDeclaration]
    simp only [hbody]
    rfl

def usingDirective (s : Site) (t : Tree) : Reads Emission := do
  let name ← namespaceName s t.children
  if name.isEmpty then return {}
  else return .ofEdge (s.importEdge (Node.makeId name "__file__") ("using " ++ name))

def declaration (s : Site) (t : Tree) : Reads Emission :=
  match t.kind with
  | "using_directive" => usingDirective s t
  | "namespace_declaration" => namespaceDeclaration s t
  | "class_declaration" => classDeclaration s "" t
  | "interface_declaration" => interfaceDeclaration s "" t
  | _ => .ok {}

def extract (s : Site) : Reads Emission := do
  withComments s ["line_comment", "block_comment"]
    (← Emission.gather (declaration s) s.parsed.root.children)

end CodeAtlas.Extract.CSharp
