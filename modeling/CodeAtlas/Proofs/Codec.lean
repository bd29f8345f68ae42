import CodeAtlas.Graph.Codec
import CodeAtlas.Proofs.JsonText

/-!
# Nodes and edges are read off their JSON form

Every part of a node or an edge is recovered from its JSON form, and every such form has each key
once, so that its text can be read back.
-/

namespace CodeAtlas

open Json (WellKeyed)

section

variable {α : Type} {write : α → Json} {read : Json → Option α}

theorem mapM_map_json (h : ∀ x, read (write x) = some x) (xs : List α) :
    (xs.map write).mapM read = some xs := by
  induction xs with
  | nil => rfl
  | cons x xs ih =>
    rw [List.map_cons, List.mapM_cons, h, ih]
    rfl

theorem optional?_orNull (h : ∀ x, Json.optional? read (write x) = some (some x)) (o : Option α) :
    Json.optional? read (.orNull write o) = some o := by
  cases o with
  | none => rfl
  | some x => exact h x

end

theorem list?_texts (ss : List String) : Json.list? Json.text? (.texts ss) = some ss := by
  refine mapM_map_json (fun _ => ?_) ss
  rfl

theorem optional?_ofText? (s : Option String) : Json.optional? Json.text? (.ofText? s) = some s :=
  optional?_orNull (fun _ => rfl) s

theorem Traits.ofJson?_toJson (t : Traits) : Traits.ofJson? t.toJson = some t := by
  have hcomplexity : Json.optional? Json.int? (.orNull .int t.complexity) = some t.complexity :=
    optional?_orNull (fun _ => rfl) t.complexity
  simp [Traits.ofJson?, Traits.toJson, Json.isObject, Json.fieldOr?, Json.get?, List.lookup,
    optional?_ofText?, list?_texts, hcomplexity, Json.bool?, Json.text?]

theorem Change.ofJson?_toJson (c : Change) : Change.ofJson? c.toJson = some c := by
  simp [Change.ofJson?, Change.toJson, Json.field?, Json.get?, List.lookup, Json.text?]

theorem History.ofJson?_toJson (h : History) : History.ofJson? h.toJson = some h := by
  have hchanges : Json.list? Change.ofJson? (.arr (h.changes.map Change.toJson)) = some h.changes :=
    mapM_map_json Change.ofJson?_toJson h.changes
  simp [History.ofJson?, History.toJson, Json.isObject, Json.fieldOr?, Json.get?, List.lookup,
    list?_texts, hchanges, Json.int?]

theorem NodeKind.ofWord?_word (k : NodeKind) : NodeKind.ofWord? k.word = some k := by
  cases k <;> decide

theorem Relation.ofWord?_word (r : Relation) : Relation.ofWord? r.word = some r := by
  cases r <;> decide

theorem Location.ofJson?_form (l : Location) :
    Location.ofJson? (.obj [("file", .str l.file), ("lines", .arr [.int l.first, .int l.last])]) =
      some l := rfl

theorem Node.ofJson?_toJson (n : Node) : Node.ofJson? n.toJson = some n := by
  have hhistory :
      Json.optional? History.ofJson? (.orNull History.toJson n.history) = some n.history := by
    -- a history is an object, so it is not taken for a missing one
    refine optional?_orNull (fun h => ?_) n.history
    exact congrArg (Option.map some) h.ofJson?_toJson
  simp [Node.ofJson?, Node.toJson, Json.field?, Json.fieldOr?, Json.get?, List.lookup, Json.text?,
    NodeKind.ofWord?_word, Location.ofJson?_form, Traits.ofJson?_toJson, hhistory]

theorem Edge.ofJson?_toJson (e : Edge) : Edge.ofJson? e.toJson = some e := by
  simp [Edge.ofJson?, Edge.toJson, Json.field?, Json.fieldOr?, Json.get?, List.lookup, Json.text?,
    Json.isObject, Relation.ofWord?_word, Json.bool?, Json.float?]

@[simp] theorem wellKeyed_orNull {α : Type} {write : α → Json} {o : Option α} :
    WellKeyed (.orNull write o) ↔ ∀ x ∈ o, WellKeyed (write x) := by
  cases o <;> simp [Json.orNull]

@[simp] theorem wellKeyed_texts (ss : List String) : WellKeyed (.texts ss) := by
  simp [Json.texts]

@[simp] theorem wellKeyed_ofText? (s : Option String) : WellKeyed (.ofText? s) := by
  simp [Json.ofText?]

theorem Traits.wellKeyed_toJson (t : Traits) : WellKeyed t.toJson := by
  simp [Traits.toJson]

theorem Change.wellKeyed_toJson (c : Change) : WellKeyed c.toJson := by
  simp [Change.toJson]

theorem History.wellKeyed_toJson (h : History) : WellKeyed h.toJson := by
  simp [History.toJson, Change.wellKeyed_toJson]

theorem Node.wellKeyed_toJson (n : Node) : WellKeyed n.toJson := by
  simp [Node.toJson, Traits.wellKeyed_toJson, History.wellKeyed_toJson]

theorem Edge.wellKeyed_toJson (e : Edge) : WellKeyed e.toJson := by
  simp [Edge.toJson]

end CodeAtlas
