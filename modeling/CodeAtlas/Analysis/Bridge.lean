import CodeAtlas.Data.OrderedMap
import CodeAtlas.Graph.Edge
import CodeAtlas.Graph.Node
import CodeAtlas.Text.Case
import CodeAtlas.Text.Split

/-!
# Bridges between languages

An endpoint that a route declares is a provider, one that a request addresses is a consumer. A
consumer is bridged to a provider in another language when their paths match. Paths are compared in
a normal form in which parameters are wildcards.
-/

namespace CodeAtlas.Bridge

-- `h` is used where the recursion is shown to end, which the linter does not see.
set_option linter.unusedVariables false in
/-- Replaces every span that starts with `opener`, holds at least one character before the next
closing brace and ends with that brace by a wildcard. -/
def starSpans (opener : List Char) (cs : List Char) : List Char :=
  match cs with
  | [] => []
  | c :: rest =>
    if opener.isPrefixOf (c :: rest) then
      let inside := (c :: rest).drop (max 1 opener.length)
      match h : inside.dropWhile (· != '\x7d') with
      | _ :: after =>
        if (inside.takeWhile (· != '\x7d')).isEmpty then c :: starSpans opener rest
        else '*' :: starSpans opener after
      | [] => c :: starSpans opener rest
    else c :: starSpans opener rest
termination_by cs.length
decreasing_by
  all_goals first
    | (simp only [List.length_cons]; omega)
    | (have h₁ := (List.dropWhile_suffix (l := inside) (· != '\x7d')).length_le
       rw [h] at h₁
       simp only [inside, List.length_cons, List.length_drop] at h₁ ⊢
       omega)

def starColons (cs : List Char) : List Char :=
  match cs with
  | [] => []
  | c :: rest =>
    if c == ':' && rest.head?.any Text.isWord then
      '*' :: starColons (rest.dropWhile Text.isWord)
    else c :: starColons rest
termination_by cs.length
decreasing_by
  · have := (List.dropWhile_suffix (l := rest) Text.isWord).length_le
    simp only [List.length_cons]
    omega
  · simp only [List.length_cons]
    omega

/-- The normal form of a path: no slashes at its ends, wildcards for parameters, lower case. -/
def normalizePath (path : String) : String :=
  let cs := Text.trimList (· == '/') path.toList
  String.ofList (Text.lowerChars
    (starSpans ['$', '\x7b'] (starColons (starSpans ['\x7b'] cs))))

def wildcardConfidence : Float := 0.8

/-- Compares the segments of two paths: `none` if they do not match, otherwise whether a wildcard
was needed. -/
def matchSegments : List String → List String → Option Bool
  | [], [] => some false
  | a :: as, b :: bs =>
    if a == b then matchSegments as bs
    else if a == "*" || b == "*" then (matchSegments as bs).map fun _ => true
    else none
  | _, _ => none

/-- How well two normal paths match: one if they are the same, less if a wildcard was needed, zero
if they do not match. -/
def matchPaths (a b : String) : Float :=
  if a == b then 1.0
  else
    match matchSegments (Text.splitChar '/' a) (Text.splitChar '/' b) with
    | some true => wildcardConfidence
    | some false => 1.0
    | none => 0.0

def providerIds (edges : List Edge) : List String :=
  (edges.filter fun e => e.relation == .defines).map (·.target)

def consumerIds (edges : List Edge) : List String :=
  (edges.filter fun e => e.relation == .networksTo && e.isBridge).map (·.target)

/-- Endpoints by their normal path; of several with one path, the last counts. -/
def byPath (endpoints : List Node) : OrderedMap String Node :=
  .ofList (endpoints.map fun n => (normalizePath n.name, n))

def bridgeEdge (consumer provider : Node) (confidence : Float) : Edge :=
  { source := consumer.id, target := provider.id, relation := .networksTo, isBridge := true
    confidence := confidence
    context := consumer.language ++ " '" ++ consumer.name ++ "' -> " ++ provider.language ++ " '" ++
      provider.name ++ "'" }

def resolve (nodes : List Node) (edges : List Edge) : List Edge :=
  let provided := providerIds edges
  let consumed := consumerIds edges
  let endpoints := nodes.filter fun n => n.kind == .endpoint
  let providers := byPath (endpoints.filter fun n => provided.contains n.id)
  let consumers :=
    byPath (endpoints.filter fun n => !provided.contains n.id && consumed.contains n.id)
  consumers.entries.flatMap fun (consumerPath, consumer) =>
    providers.entries.filterMap fun (providerPath, provider) =>
      let confidence := matchPaths consumerPath providerPath
      if consumer.language != provider.language && confidence > 0.0 then
        some (bridgeEdge consumer provider confidence)
      else none

end CodeAtlas.Bridge
