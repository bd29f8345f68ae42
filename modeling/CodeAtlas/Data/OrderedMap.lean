/-!
# Maps that keep the order of their keys

A key stands where it was first written. Writing it again replaces its value and keeps its place;
erasing it and writing it anew puts it at the end.
-/

namespace CodeAtlas

/-- A map whose keys are in order of first writing. -/
structure OrderedMap (α β : Type) where
  entries : List (α × β) := []
deriving Repr, Inhabited

namespace OrderedMap

variable {α β : Type} [BEq α]

def empty : OrderedMap α β := {}

def get? (m : OrderedMap α β) (key : α) : Option β :=
  m.entries.lookup key

def contains (m : OrderedMap α β) (key : α) : Bool :=
  (m.get? key).isSome

def insertEntry (key : α) (value : β) : List (α × β) → List (α × β)
  | [] => [(key, value)]
  | e :: rest => if e.1 == key then (e.1, value) :: rest else e :: insertEntry key value rest

def insert (m : OrderedMap α β) (key : α) (value : β) : OrderedMap α β :=
  ⟨insertEntry key value m.entries⟩

def erase (m : OrderedMap α β) (key : α) : OrderedMap α β :=
  ⟨m.entries.filter fun e => !(e.1 == key)⟩

def alter (m : OrderedMap α β) (key : α) (default : β) (f : β → β) : OrderedMap α β :=
  m.insert key (f ((m.get? key).getD default))

def keys (m : OrderedMap α β) : List α :=
  m.entries.map (·.1)

def values (m : OrderedMap α β) : List β :=
  m.entries.map (·.2)

def ofList (pairs : List (α × β)) : OrderedMap α β :=
  pairs.foldl (fun m p => m.insert p.1 p.2) empty

def groupBy {γ : Type} (key : γ → α) (xs : List γ) : OrderedMap α (List γ) :=
  xs.foldl (fun m x => m.alter (key x) [] (· ++ [x])) empty

end OrderedMap

end CodeAtlas
