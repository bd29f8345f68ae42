import CodeAtlas.Extract.Emission

/-!
# Parameter names

Grammars differ in how they wrap a parameter's name. The list of parameters is the first child of
one of three kinds, and each wrapper kind is looked through for the identifier that it holds.
-/

namespace CodeAtlas.Extract

open Source (Tree)

def parameterName (s : Site) (entry : Tree) : Reads (Option String) :=
  if ["simple_parameter", "required_parameter", "optional_parameter"].contains entry.kind then do
    match ← s.parsed.childText? entry "variable_name" with
    | some name => return some name
    | none => s.parsed.childText? entry "identifier"
  else if entry.kind == "identifier" then
    if s.parsed.isEmpty entry then .ok none else (s.parsed.text entry).map some
  else if ["parameter_declaration", "typed_parameter", "typed_default_parameter",
      "default_parameter"].contains entry.kind then
    s.parsed.childText? entry "identifier"
  else
    .ok none

def collect {α β : Type} (f : α → Reads (Option β)) : List α → Reads (List β)
  | [] => .ok []
  | a :: rest => do
    let first ← f a
    let others ← collect f rest
    return first.toList ++ others

def parameterNames (s : Site) (t : Tree) : Reads (List String) :=
  match (t.child? "formal_parameters").or ((t.child? "parameter_list").or
    (t.child? "parameters")) with
  | some list => collect (parameterName s) list.children
  | none => .ok []

end CodeAtlas.Extract
