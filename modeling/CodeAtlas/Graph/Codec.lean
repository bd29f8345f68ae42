import CodeAtlas.Graph.Edge
import CodeAtlas.Graph.Node
import CodeAtlas.Json.Expect

/-!
# Nodes and edges as JSON values

The form in which the graph is stored and exchanged. Reading accepts values in which fields that
have a default are left out, and skips fields it does not know.
-/

namespace CodeAtlas

def Json.orNull {α : Type} (write : α → Json) : Option α → Json
  | some x => write x
  | none => .null

def Json.ofText? : Option String → Json :=
  .orNull .str

def Json.texts (ss : List String) : Json :=
  .arr (ss.map .str)

def Traits.toJson (t : Traits) : Json :=
  .obj [("visibility", .ofText? t.visibility), ("is_async", .bool t.isAsync),
    ("complexity_score", .orNull .int t.complexity), ("parameters", .texts t.parameters),
    ("return_type", .ofText? t.returnType), ("parent_symbol", .str t.parentSymbol)]

def Change.toJson (c : Change) : Json :=
  .obj [("revision", .str c.revision), ("author", .str c.author), ("date", .str c.date),
    ("message", .str c.message)]

def History.toJson (h : History) : Json :=
  .obj [("churn_rate", .int h.churnRate), ("blame_owners", .texts h.owners),
    ("intent_logs", .arr (h.changes.map Change.toJson))]

def Node.toJson (n : Node) : Json :=
  .obj [("id", .str n.id), ("type", .str n.kind.word), ("name", .str n.name),
    ("loc", .obj [("file", .str n.loc.file), ("lines", .arr [.int n.loc.first, .int n.loc.last])]),
    ("language", .str n.language), ("meta", n.traits.toJson), ("summary", .str n.summary),
    ("history", .orNull History.toJson n.history)]

def Edge.toJson (e : Edge) : Json :=
  .obj [("source", .str e.source), ("target", .str e.target), ("relation", .str e.relation.word),
    ("metadata", .obj [("is_bridge", .bool e.isBridge), ("confidence", .float e.confidence),
      ("context", .str e.context)])]

def Traits.ofJson? (v : Json) : Option Traits := do
  guard v.isObject
  return {
    visibility := ← v.fieldOr? "visibility" (Json.optional? Json.text?) none
    isAsync := ← v.fieldOr? "is_async" Json.bool? false
    complexity := ← v.fieldOr? "complexity_score" (Json.optional? Json.int?) none
    parameters := ← v.fieldOr? "parameters" (Json.list? Json.text?) []
    returnType := ← v.fieldOr? "return_type" (Json.optional? Json.text?) none
    parentSymbol := ← v.fieldOr? "parent_symbol" Json.text? "" }

def Change.ofJson? (v : Json) : Option Change := do
  return {
    revision := ← v.field? "revision" Json.text?
    author := ← v.field? "author" Json.text?
    date := ← v.field? "date" Json.text?
    message := ← v.field? "message" Json.text? }

def History.ofJson? (v : Json) : Option History := do
  guard v.isObject
  return {
    churnRate := ← v.fieldOr? "churn_rate" Json.int? 0
    owners := ← v.fieldOr? "blame_owners" (Json.list? Json.text?) []
    changes := ← v.fieldOr? "intent_logs" (Json.list? Change.ofJson?) [] }

def Location.ofJson? (v : Json) : Option Location := do
  let file ← v.field? "file" Json.text?
  match ← v.field? "lines" (Json.list? Json.int?) with
  | [first, last] => return ⟨file, first, last⟩
  | _ => none

def Node.ofJson? (v : Json) : Option Node := do
  return {
    id := ← v.field? "id" Json.text?
    kind := ← v.field? "type" fun w => w.text?.bind NodeKind.ofWord?
    name := ← v.field? "name" Json.text?
    loc := ← v.field? "loc" Location.ofJson?
    language := ← v.field? "language" Json.text?
    traits := ← v.fieldOr? "meta" Traits.ofJson? {}
    summary := ← v.fieldOr? "summary" Json.text? ""
    history := ← v.fieldOr? "history" (Json.optional? History.ofJson?) none }

def Edge.ofJson? (v : Json) : Option Edge := do
  let details := (v.get? "metadata").getD (.obj [])
  guard details.isObject
  return {
    source := ← v.field? "source" Json.text?
    target := ← v.field? "target" Json.text?
    relation := ← v.field? "relation" fun w => w.text?.bind Relation.ofWord?
    isBridge := ← details.fieldOr? "is_bridge" Json.bool? false
    confidence := ← details.fieldOr? "confidence" Json.float? 1.0
    context := ← details.fieldOr? "context" Json.text? "" }

end CodeAtlas
