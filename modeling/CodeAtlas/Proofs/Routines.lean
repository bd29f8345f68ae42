import CodeAtlas.Extract.Languages
import CodeAtlas.Graph.Lookup

/-!
# Routines and the calls in their bodies

A file declares routines: functions and methods. This module lists them straight off the tree,
without nodes, edges or failures: what is called what, where it stands, and which tree is its body.
A body is walked whole, so a call in it belongs to the routine however deep it stands, also in a
function that is declared inside the body.

* **`Language.routines`** — the routines of a file in the order of their declarations. Only
  declarations that the readers look at count.
* **`Language.recordedCall?`** — the edge that is to be recorded for a tree node in the body of a
  routine.
-/

namespace CodeAtlas.Extract

open Source (Tree Parsed)

/-- A text, or the empty text in place of one that cannot be read. -/
def orEmpty : Reads String → String
  | .ok text => text
  | .error _ => ""

/-- A function or a method, with the place of its declaration and the trees that are walked for its
calls. -/
structure Routine where
  kind : NodeKind
  name : String
  id : String
  place : Tree
  bodies : List Tree

def Site.routine (s : Site) (kind : NodeKind) (name : String) (place : Tree) (bodies : List Tree) :
    Routine :=
  { kind := kind, name := name, id := s.idOf name, place := place, bodies := bodies }

/-- A declaration without a name declares nothing. -/
def unlessEmpty (name : String) (rs : List Routine) : List Routine :=
  if name.isEmpty then [] else rs

namespace Python

def functionRoutines (s : Site) (t : Tree) : List Routine :=
  let name := orEmpty (s.parsed.childText t "identifier")
  unlessEmpty name [s.routine .function name t (t.child? "block").toList]

def methodRoutines (s : Site) (className : String) (t : Tree) : List Routine :=
  let name := orEmpty (s.parsed.childText t "identifier")
  unlessEmpty name [s.routine .method (className ++ "." ++ name) t (t.child? "block").toList]

def classRoutines (s : Site) (t : Tree) : List Routine :=
  let name := orEmpty (s.parsed.childText t "identifier")
  let members :=
    (t.child? "block").toList.flatMap fun body => body.children.filterMap memberFunction?
  unlessEmpty name (members.flatMap (methodRoutines s name))

def statementRoutines (s : Site) (t : Tree) : List Routine :=
  match t.kind with
  | "class_definition" => classRoutines s t
  | "function_definition" => functionRoutines s t
  | "decorated_definition" =>
    match t.child? "function_definition", t.child? "class_definition" with
    | some f, _ => functionRoutines s f
    | none, some c => classRoutines s c
    | none, none => []
  | _ => []

def routines (s : Site) : List Routine :=
  s.parsed.root.children.flatMap (statementRoutines s)

end Python

namespace Php

def functionRoutines (s : Site) (namespaceName : String) (t : Tree) : List Routine :=
  let name := orEmpty (s.parsed.childText t "name")
  unlessEmpty name [s.routine .function (qualify namespaceName name) t
    (t.child? "compound_statement").toList]

def methodRoutines (s : Site) (className : String) (t : Tree) : List Routine :=
  let name := orEmpty (s.parsed.childText t "name")
  unlessEmpty name [s.routine .method (className ++ "::" ++ name) t
    (t.child? "compound_statement").toList]

def classRoutines (s : Site) (namespaceName : String) (t : Tree) : List Routine :=
  let name := orEmpty (s.parsed.childText t "name")
  let members := (t.child? "declaration_list").toList.flatMap fun list =>
    list.children.filter fun m => m.kind == "method_declaration"
  unlessEmpty name (members.flatMap (methodRoutines s (qualify namespaceName name)))

def statementsRoutines (s : Site) : (namespaceName : String) → List Tree → List Routine
  | _, [] => []
  | namespaceName, t :: rest =>
    match t.kind with
    | "namespace_definition" => statementsRoutines s
        (orEmpty (s.parsed.childText t "namespace_name")) rest
    | "class_declaration" => classRoutines s namespaceName t ++ statementsRoutines s namespaceName
        rest
    | "function_definition" => functionRoutines s namespaceName t ++
        statementsRoutines s namespaceName rest
    | _ => statementsRoutines s namespaceName rest

def routines (s : Site) : List Routine :=
  statementsRoutines s "" s.parsed.root.children

end Php

namespace Script

def functionRoutine (s : Site) (name : String) (place decl : Tree) : Routine :=
  s.routine .function name place (decl.child? "statement_block").toList

def methodRoutines (s : Site) (className : String) (t : Tree) : List Routine :=
  let name := orEmpty (s.parsed.childText t "property_identifier")
  unlessEmpty name [s.routine .method (className ++ "." ++ name) t
    (t.child? "statement_block").toList]

def classRoutines (s : Site) (d : Dialect) (t : Tree) : List Routine :=
  let name := orEmpty (className s d t)
  let members := (t.child? "class_body").toList.flatMap fun body =>
    body.children.filter fun m => m.kind == "method_definition"
  unlessEmpty name (members.flatMap (methodRoutines s name))

def variableRoutines (s : Site) (place c : Tree) : List Routine :=
  if c.kind != "variable_declarator" then []
  else
    match c.child? "identifier", (c.child? "arrow_function").or
      (c.child? "function_expression") with
    | some nameTree, some decl =>
      if s.parsed.isEmpty nameTree then []
      else [functionRoutine s (orEmpty (s.parsed.text nameTree)) place decl]
    | _, _ => []

def ownName? (s : Site) (decl : Tree) : Option String :=
  (s.parsed.childText? decl "identifier").toOption.join

def exportRoutines (s : Site) (t : Tree) : List Routine :=
  match t.child? "assignment_expression" with
  | none => []
  | some assign =>
    match assign.children.head? with
    | none => []
    | some left =>
      match exportedName (orEmpty (s.parsed.text left)) with
      | none => []
      | some exported =>
        match assign.children.find? fun c =>
            ["arrow_function", "function_expression", "function"].contains c.kind with
        | none => []
        | some decl => [functionRoutine s ((ownName? s decl).getD exported) t decl]

def declarationRoutines (s : Site) (d : Dialect) (t : Tree) : List Routine :=
  match t.kind with
  | "function_declaration" =>
    let name := orEmpty (s.parsed.childText t "identifier")
    unlessEmpty name [functionRoutine s name t t]
  | "class_declaration" => classRoutines s d t
  | "lexical_declaration" => t.children.flatMap (variableRoutines s t)
  | "variable_declaration" => t.children.flatMap (variableRoutines s t)
  | _ => []

def statementRoutines (s : Site) (d : Dialect) (t : Tree) : List Routine :=
  match t.kind with
  | "export_statement" => t.children.flatMap (declarationRoutines s d)
  | "expression_statement" => exportRoutines s t
  | _ => declarationRoutines s d t

def routines (d : Dialect) (s : Site) : List Routine :=
  s.parsed.root.children.flatMap (statementRoutines s d)

end Script

namespace Go

def functionRoutines (s : Site) (t : Tree) : List Routine :=
  let name := orEmpty (s.parsed.childText t "identifier")
  unlessEmpty name [s.routine .function name t (t.child? "block").toList]

def methodRoutines (s : Site) (t : Tree) : List Routine :=
  let name := orEmpty (s.parsed.childText t "field_identifier")
  let receiver := orEmpty (receiverType s t)
  let fullName := if receiver.isEmpty then name else receiver ++ "." ++ name
  unlessEmpty name [s.routine .method fullName t (t.child? "block").toList]

def declarationRoutines (s : Site) (t : Tree) : List Routine :=
  match t.kind with
  | "function_declaration" => functionRoutines s t
  | "method_declaration" => methodRoutines s t
  | _ => []

def routines (s : Site) : List Routine :=
  s.parsed.root.children.flatMap (declarationRoutines s)

end Go

/-! ## C#

Classes and namespaces nest, and each listing goes down the tree as the tree does. -/

namespace CSharp

def methodRoutines (s : Site) (className : String) (t : Tree) : List Routine :=
  let name := orEmpty (identifier s t)
  unlessEmpty name [s.routine .method (className ++ "." ++ name) t
    ((t.child? "block").toList ++ (t.child? "arrow_expression_clause").toList)]

def constructorRoutines (s : Site) (className : String) (t : Tree) : List Routine :=
  let name := orEmpty (identifier s t)
  let fullName := className ++ "." ++ name
  unlessEmpty name [{ s.routine .method fullName t (t.child? "block").toList with
    id := s.idOf (fullName ++ ".__ctor__") }]

mutual

def classRoutines (s : Site) (outer : String) : Tree → List Routine
  | .node kind start stop children =>
    let name := orEmpty (identifier s (.node kind start stop children))
    unlessEmpty name (classBodyRoutines s (qualify outer name) children)

def classBodyRoutines (s : Site) (className : String) : List Tree → List Routine
  | [] => []
  | .node "declaration_list" _ _ members :: _ => memberRoutines s className members
  | _ :: rest => classBodyRoutines s className rest

def memberRoutines (s : Site) (className : String) : List Tree → List Routine
  | [] => []
  | m :: rest =>
    (match m.kind with
      | "method_declaration" => methodRoutines s className m
      | "constructor_declaration" => constructorRoutines s className m
      | "class_declaration" => classRoutines s className m
      | _ => []) ++ memberRoutines s className rest

end

mutual

def namespaceRoutines (s : Site) : Tree → List Routine
  | .node _ _ _ children => namespaceBodyRoutines s (orEmpty (namespaceName s children)) children

def namespaceBodyRoutines (s : Site) (name : String) : List Tree → List Routine
  | [] => []
  | .node "declaration_list" _ _ members :: _ => namespaceMemberRoutines s name members
  | _ :: rest => namespaceBodyRoutines s name rest

def namespaceMemberRoutines (s : Site) (name : String) : List Tree → List Routine
  | [] => []
  | m :: rest =>
    (match m.kind with
      | "class_declaration" => classRoutines s name m
      | "namespace_declaration" => namespaceRoutines s m
      | _ => []) ++ namespaceMemberRoutines s name rest

end

def routinesOfMember (s : Site) (className : String) (m : Tree) : List Routine :=
  match m.kind with
  | "method_declaration" => methodRoutines s className m
  | "constructor_declaration" => constructorRoutines s className m
  | "class_declaration" => classRoutines s className m
  | _ => []

def routinesInNamespace (s : Site) (name : String) (m : Tree) : List Routine :=
  match m.kind with
  | "class_declaration" => classRoutines s name m
  | "namespace_declaration" => namespaceRoutines s m
  | _ => []

theorem classRoutines_eq (s : Site) (outer : String) (t : Tree) :
    classRoutines s outer t =
      let name := orEmpty (identifier s t)
      unlessEmpty name ((bodyMembers t.children).flatMap
        (routinesOfMember s (qualify outer name))) := by
  have hmembers (className : String) (ms : List Tree) :
      memberRoutines s className ms = ms.flatMap (routinesOfMember s className) := by
    induction ms with
    | nil => rw [memberRoutines, List.flatMap_nil]
    | cons m rest ih =>
      rw [memberRoutines, List.flatMap_cons, ih]
      rfl
  have hbody (className : String) (ts : List Tree) :
      classBodyRoutines s className ts = (bodyMembers ts).flatMap
        (routinesOfMember s className) := by
    refine body_eq (by rw [classBodyRoutines]; rfl) (fun start stop ms rest => ?_)
      (fun t rest hkind => ?_) ts
    · rw [classBodyRoutines, hmembers]
    · rw [classBodyRoutines]
      rintro start stop ms rfl
      exact hkind rfl
  cases t with
  | node kind start stop children =>
    rw [classRoutines]
    simp only [hbody]
    rfl

theorem namespaceRoutines_eq (s : Site) (t : Tree) :
    namespaceRoutines s t =
      (bodyMembers t.children).flatMap
        (routinesInNamespace s (orEmpty (namespaceName s t.children))) := by
  have hmembers (name : String) (ms : List Tree) :
      namespaceMemberRoutines s name ms = ms.flatMap (routinesInNamespace s name) := by
    induction ms with
    | nil => rw [namespaceMemberRoutines, List.flatMap_nil]
    | cons m rest ih =>
      rw [namespaceMemberRoutines, List.flatMap_cons, ih]
      rfl
  have hbody (name : String) (ts : List Tree) :
      namespaceBodyRoutines s name ts = (bodyMembers ts).flatMap (routinesInNamespace s name) := by
    refine body_eq (by rw [namespaceBodyRoutines]; rfl) (fun start stop ms rest => ?_)
      (fun t rest hkind => ?_) ts
    · rw [namespaceBodyRoutines, hmembers]
    · rw [namespaceBodyRoutines]
      rintro start stop ms rfl
      exact hkind rfl
  cases t with
  | node kind start stop children =>
    rw [namespaceRoutines, hbody]
    rfl

def declarationRoutines (s : Site) (t : Tree) : List Routine :=
  match t.kind with
  | "namespace_declaration" => namespaceRoutines s t
  | "class_declaration" => classRoutines s "" t
  | _ => []

def routines (s : Site) : List Routine :=
  s.parsed.root.children.flatMap (declarationRoutines s)

end CSharp

def headText (kind : String) (s : Site) (t : Tree) : String :=
  if t.kind == kind then (t.children.head?.map fun c => orEmpty (s.parsed.text c)).getD "" else ""

end CodeAtlas.Extract

namespace CodeAtlas.Language

open Extract
open Source (Tree)

def routines (l : Language) (s : Site) : List Routine :=
  match l with
  | .php => Php.routines s
  | .javascript => Script.routines .plain s
  | .python => Python.routines s
  | .typescript => Script.routines .typed s
  | .go => Go.routines s
  | .csharp => CSharp.routines s

/-- The text of what a tree node calls, empty if it is no call. -/
def calledText (l : Language) (s : Site) (t : Tree) : String :=
  match l with
  | .php => orEmpty (Php.calleeText s t)
  | .python => headText "call" s t
  | .csharp => headText "invocation_expression" s t
  | .javascript | .typescript | .go => headText "call_expression" s t

/-- What is kept of the text of a call. A call without text is described by its callee. -/
def keptText (l : Language) (s : Site) (t : Tree) (callee : String) : String :=
  let text := orEmpty (s.parsed.text t)
  match l with
  | .php => if text.isEmpty then callee else Text.cut contextLength text
  | _ => Text.cut contextLength (if s.parsed.isEmpty t then callee else text)

/-- The edge that is to be recorded for a tree node in the body of a routine. -/
def recordedCall? (l : Language) (s : Site) (source : String) (t : Tree) : Option Edge :=
  (resolveCallee (l.calledText s t)).map fun callee => callEdge source callee
    (l.keptText s t callee)

def callsIn (l : Language) (s : Site) (r : Routine) : List Edge :=
  r.bodies.flatMap fun body => body.preorder.filterMap (l.recordedCall? s r.id)

end CodeAtlas.Language
