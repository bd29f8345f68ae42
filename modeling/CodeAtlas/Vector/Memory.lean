import CodeAtlas.Vector.Catalog

/-!
# Working memory

Notes that are kept between sessions. A note has a key; writing a key again replaces its note and
keeps the date of its first writing. A note may expire; it is then no longer found, but it is not
removed.
-/

namespace CodeAtlas.Vector

structure Note where
  key : String
  content : String
  tags : List String := []
  files : List String := []
  /-- When the note expires, as a date; an empty text means never. -/
  expires : String := ""

/-- Whether a note has expired. A date that cannot be read never comes. -/
def isExpired (now : Moment) (entry : Payload) : Except Failure Bool :=
  match entry.lookup "expires_at" with
  | none => .ok false
  | some v =>
    if !v.isSomething then .ok false
    else
      match v with
      | .str s =>
        match Moment.parse s with
        | .error _ => .ok false
        | .ok m =>
          match m.before? now with
          | some b => .ok b
          | none => .error .mixedDates
      | _ => .error .wrongType

def unexpired {α : Type} (now : Moment) (entry : α → Payload) (xs : List α) :
    Except Failure (List α) :=
  xs.filterM fun x => return !(← isExpired now (entry x))

namespace Catalog

def recallKey (c : Catalog) (now : Moment) (key : String) : StoreM (List Payload) := do
  if key.isEmpty then return []
  let found ← scroll (c.name .memory) [⟨"key", key⟩] 1
  return (← unexpired now Point.payload found).map Point.payload

def tagConditions (tag : String) : List Condition :=
  if tag.isEmpty then [] else [⟨"tags", tag⟩]

def recallMeaning (c : Catalog) (now : Moment) (question tag : String) (limit : Int) :
    StoreM (List Payload) := do
  if question.isEmpty then return []
  let asked := (← get).vectorOf question
  let hits ← query (c.name .memory) asked (tagConditions tag) limit
  return (← unexpired now (·.point.payload) hits).map Hit.shown

def recallNotes (c : Catalog) (now : Moment) (question key tag : String) (limit : Int) :
    StoreM (List Payload) :=
  if key.isEmpty then c.recallMeaning now question tag limit else c.recallKey now key

def mostNotes : Int := 200

/-- By which date a note is listed: that of its last change or, failing that, of its first
writing. -/
def listingDate (entry : Payload) : Json :=
  ((entry.lookup "updated_at").or (entry.lookup "created_at")).getD (.str "")

def dated (entry : Payload) : Except Failure (String × Payload) :=
  match listingDate entry with
  | .str date => .ok (date, entry)
  | _ => .error .wrongType

def latestFirst (entries : List Payload) : Except Failure (List Payload) :=
  match entries with
  | [] => .ok []
  | [e] => .ok [e]
  | es => do
    return ((← es.mapM dated).mergeSort fun a b => !(a.1 < b.1)).map (·.2)

def listNotes (c : Catalog) (now : Moment) (tag : String) : StoreM (List Payload) := do
  let found ← scroll (c.name .memory) (tagConditions tag) mostNotes
  let entries := (← unexpired now Point.payload found).map Point.payload
  latestFirst entries

def notePayload (n : Note) (created : Json) (now : Moment) : Payload :=
  [("key", .str n.key), ("content", .str n.content), ("tags", .texts n.tags),
    ("source_files", .texts n.files), ("created_at", created), ("updated_at", .str now.toText)] ++
    (if n.expires.isEmpty then [] else [("expires_at", .str n.expires)])

def keepNote (c : Catalog) (now : Moment) (n : Note) : StoreM Unit := do
  let known ← c.recallKey now n.key
  let created := (known.head?.bind (·.lookup "created_at")).getD (.str now.toText)
  let vector := vectorJson ((← get).vectorOf (n.key ++ ": " ++ n.content))
  upsert (c.name .memory) [⟨pointId n.key, vector, notePayload n created now⟩]

def forgetNote (c : Catalog) (key : String) : StoreM Unit :=
  deletePoint (c.name .memory) (pointId key)

end Catalog

end CodeAtlas.Vector
