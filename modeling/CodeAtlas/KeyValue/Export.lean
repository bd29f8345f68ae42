import CodeAtlas.Json.Writer
import CodeAtlas.KeyValue.Payload
import CodeAtlas.KeyValue.Store

/-!
# Exporting functions to a key-value store

Every function and method is written under a key of its own. How the store looks for the keys of an
earlier export is a parameter. Writes are collected in pipes. A function that cannot be put into its
pipe, and a pipe that breaks, are reported and do not stop the export.
-/

namespace CodeAtlas.KeyValue

structure ExportOptions where
  address : Address := {}
  keyPrefix : String := "hammy"
  batchSize : Int := 200
  commitDepth : Int := 10
  flush : Bool := false

def keyStart (start : String) : String :=
  start ++ ":func:"

structure Exported where
  count : Nat := 0
  errors : List String := []
  progress : List (Nat × Nat) := []
deriving Inhabited

def isExported : NodeKind → Bool
  | .function | .method => true
  | _ => false

def pipeOf (o : ExportOptions) (s : Store) (comments : List Node) (now : String)
    (batch : List Node) :
    List (String × String) :=
  (batch.map fun n => (keyStart o.keyPrefix ++ n.id,
    Json.write .compact (payload n comments o.commitDepth now))).filter fun e => !s.refused.contains
      e.1

def refusals (o : ExportOptions) (s : Store) (batch : List Node) : List String :=
  (batch.filter fun n => s.refused.contains (keyStart o.keyPrefix ++ n.id)).map
    fun n => n.name ++ ": " ++ (Failure.keyRefused "bad key").message

def exportBatch (o : ExportOptions) (comments : List Node) (now : String) (total number : Nat)
    (batch : List Node) (done : Exported) (s : Store) : Exported × Store :=
  let pipe := pipeOf o s comments now batch
  let errors := done.errors ++ refusals o s batch
  match s.execute pipe with
  | (.ok _, s) =>
    let count := done.count + pipe.length
    (⟨count, errors, done.progress ++ [(count, total)]⟩, s)
  | (.error f, s) =>
    let report := "Pipeline execute failed (batch " ++ toString number ++ "): " ++ f.message
    ({ done with errors := errors ++ [report] }, s)

def exportBatches (o : ExportOptions) (comments : List Node) (now : String) (total : Nat) :
    (number : Nat) → List (List Node) → Exported → Store → Exported × Store
  | _, [], done, s => (done, s)
  | number, b :: rest, done, s =>
    let (done, s) := exportBatch o comments now total number b done s
    exportBatches o comments now total (number + 1) rest done s

section

variable (look : (pattern : String) → (cursor : Nat) → StoreM (Nat × List String))

def writeFunctions (o : ExportOptions) (functions comments : List Node) (now : String) :
    StoreM Exported := do
  if o.flush then discard (KeyValue.flush (look (keyStart o.keyPrefix ++ "*")))
  if o.batchSize = 0 then throw .zeroStep
  let batches := if 0 < o.batchSize then pieces o.batchSize.toNat functions else []
  modifyGet (exportBatches o comments now functions.length 1 batches {})

/-- What came of an export, and the store afterwards. An export that failed in the end may still
have written functions. -/
structure ExportOutcome where
  done : Exported
  failure : Option Failure := none
  store : Option Store

def exportAndClose (o : ExportOptions) (functions comments : List Node) (now : String) (s : Store) :
    ExportOutcome :=
  let (written, s) := (writeFunctions look o functions comments now).run.run s
  let (closed, s) := close.run.run s
  let failure := match closed, written with
    | .error f, _ => some f
    | .ok _, .error f => some f
    | .ok _, .ok _ => none
  ⟨written.toOption.getD {}, failure, some s⟩

/-- Exports the functions of a project. There may be no way to reach a store at all. -/
def exportTo (store? : Option Store) (o : ExportOptions) (nodes : List Node) (now : String) :
    ExportOutcome :=
  let refused (why : String) (store? : Option Store) : ExportOutcome :=
    ⟨{ errors := [why] }, none, store?⟩
  match store? with
  | none => refused "redis package not installed. Install with: pip install 'hammy[redis]'" none
  | some s =>
    let functions := nodes.filter (isExported ·.kind)
    if functions.isEmpty then refused "No functions or methods found in index." (some s)
    else
      let s := s.record (.connect o.address)
      match s.pingFault with
      | some reason =>
        refused ("Cannot connect to Redis at " ++ o.address.host ++ ":" ++
          toString o.address.port ++ " — " ++ reason) (some s)
      | none => exportAndClose look o functions (nodes.filter Node.isComment) now s

end

end CodeAtlas.KeyValue
