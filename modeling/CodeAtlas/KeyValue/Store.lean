import CodeAtlas.Data.OrderedMap
import CodeAtlas.Failure

/-!
# A key-value store

The store runs outside of the library. It is described by the texts under its keys, by what goes
wrong in it, and by a record of the calls that were made. Looking for keys gives a page of them at a
time.
-/

namespace CodeAtlas.KeyValue

structure Address where
  host : String := "localhost"
  port : Int := 6379
  db : Int := 0
  password : Option String := none
deriving Repr, DecidableEq, Inhabited

inductive Call where
  | connect (address : Address)
  | scan (cursor : Nat) (pattern : String) (count : Nat)
  | delete (keys : List String)
  | execute (keys : List String)
  | close
deriving Repr, DecidableEq

structure Store where
  data : OrderedMap String String := {}
  pingFault : Option String := none
  getFault : Option String := none
  closeFault : Option String := none
  refused : List String := []
  broken : List Nat := []
  /-- How many keys a page has; all keys if it says nothing. -/
  page : Option Nat := none
  executed : Nat := 0
  calls : List Call := []
deriving Inhabited

abbrev StoreM (α : Type) : Type := ExceptT Failure (StateM Store) α

namespace Store

def record (s : Store) (c : Call) : Store :=
  { s with calls := s.calls ++ [c] }

def keysWith (s : Store) (start : String) : List String :=
  (s.data.keys.filter (Text.startsWith · start)).mergeSort fun a b => !(b < a)

def firstPage (s : Store) (keys : List String) : List String :=
  match s.page with
  | some n => keys.take n
  | none => keys

def delete (s : Store) (keys : List String) : Store :=
  { s.record (.delete keys) with data := keys.foldl OrderedMap.erase s.data }

def execute (s : Store) (pipe : List (String × String)) : Except Failure Unit × Store :=
  let number := s.executed + 1
  let s := { s.record (.execute (pipe.map (·.1))) with executed := number }
  if s.broken.contains number then (.error (.keyValueDown "pipe broken"), s)
  else (.ok (), { s with data := pipe.foldl (fun d (k, v) => d.insert k v) s.data })

end Store

def raise? (fault : Option String) : StoreM Unit :=
  match fault with
  | some reason => throw (.keyValueDown reason)
  | none => pure ()

def close : StoreM Unit := do
  modify (·.record .close)
  raise? (← get).closeFault

def scanCount : Nat := 500

/-- One page of the keys that start with a text, and where the next page starts; zero if there is
none. -/
def scan (start : String) (cursor : Nat) : StoreM (Nat × List String) := do
  modify (·.record (.scan cursor (start ++ "*") scanCount))
  let s ← get
  let keys := s.keysWith start
  let page := s.firstPage keys
  return (if page.length < keys.length then cursor + 1 else 0, page)

/-- Looks for the keys that fit a pattern: a text, and a star that stands for the rest. -/
def scanPattern (pattern : String) : (cursor : Nat) → StoreM (Nat × List String) :=
  scan (String.ofList pattern.toList.dropLast)

/-- Erases one page of the keys that a way to look for keys shows. Gives where the next page starts
and how many keys were on this one. -/
def flushPage (look : Nat → StoreM (Nat × List String)) (cursor : Nat) : StoreM (Nat × Nat) := do
  let (next, keys) ← look cursor
  if !keys.isEmpty then modify (·.delete keys)
  return (next, keys.length)

/-- Erases page after page and counts the keys. `rounds` bounds the number of pages. -/
def flushFrom (look : Nat → StoreM (Nat × List String)) : (rounds cursor : Nat) → StoreM Nat
  | 0, _ => pure 0
  | n + 1, cursor => do
    let (next, erased) ← flushPage look cursor
    if next = 0 then return erased
    return erased + (← flushFrom look n next)

def flush (look : Nat → StoreM (Nat × List String)) : StoreM Nat := do
  flushFrom look ((← get).data.entries.length + 1) 0

end CodeAtlas.KeyValue
