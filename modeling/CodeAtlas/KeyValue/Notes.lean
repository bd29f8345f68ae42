import CodeAtlas.KeyValue.Export

/-!
# Notes on functions

Other tools may leave notes with an exported function. They are read back and shown along with it;
a note that cannot be read counts as none.
-/

namespace CodeAtlas.KeyValue

def notesIn? (text : String) : Option Json :=
  ((Json.parse? text).bind (·.get? "meta")).filter Json.isSomething

/-- A reader of notes: where the functions are, and the store once it was reached for. -/
structure NoteReader where
  address : Address := {}
  keyPrefix : String := "hammy"
  connected : Bool := false

namespace NoteReader

def notes? (r : NoteReader) (store : Store) (id : String) : Option Json :=
  if r.connected && store.getFault.isNone then
    (store.data.get? (keyStart r.keyPrefix ++ id)).bind notesIn?
  else none

def line (r : NoteReader) (store : Store) (id : String) : String :=
  match r.notes? store id with
  | some v => "\n  meta: " ++ Json.write .spaced v
  | none => ""

def connect (r : NoteReader) (store? : Option Store) :
    Except Failure Unit × NoteReader × Option Store :=
  match store? with
  | none => (.error .keyValueMissing, r, none)
  | some s =>
    let s := s.record (.connect r.address)
    let r := { r with connected := true }
    match s.pingFault with
    | some reason => (.error (.keyValueDown reason), r, some s)
    | none => (.ok (), r, some s)

def close (r : NoteReader) (store? : Option Store) : NoteReader × Option Store :=
  ({ r with connected := false }, if r.connected then store?.map (·.record .close) else store?)

end NoteReader

end CodeAtlas.KeyValue
