import CodeAtlas.Project.Config
import CodeAtlas.Project.Environment
import CodeAtlas.Summary.Model
import CodeAtlas.Summary.Prompt
import CodeAtlas.Summary.Reply
import CodeAtlas.Summary.Snippet

/-!
# Summaries for the symbols of a project

Functions, methods and classes whose source can be read are sent to a language model in batches, and
the sentences that come back are written to them. Where the model gives nothing usable for a batch,
it is asked symbol by symbol; a batch that fails is reported.
-/

namespace CodeAtlas.Summary

def isSummarized : NodeKind → Bool
  | .function | .method | .classDecl => true
  | _ => false

def keyVariable (provider : String) : String :=
  match Text.lower provider with
  | "openrouter" => "OPENROUTER_API_KEY"
  | "anthropic" => "ANTHROPIC_API_KEY"
  | "openai" => "OPENAI_API_KEY"
  | "azure" => "AZURE_API_KEY"
  | "gemini" => "GEMINI_API_KEY"
  | _ => Text.upper provider ++ "_API_KEY"

def addressOf? (provider : String) : Option String :=
  if Text.lower provider == "openrouter" then some "https://openrouter.ai/api/v1" else none

structure Candidate where
  place : Nat
  item : Item

def asks (settings : EnrichmentSettings) (n : Node) : Bool :=
  isSummarized n.kind && !(settings.skipIfSummary && !n.summary.isEmpty)

def wanted (settings : EnrichmentSettings) (nodes : List Node) : List (Node × Nat) :=
  let asking := nodes.zipIdx.filter fun x => asks settings x.1
  if 0 < settings.maxSymbols then asking.take settings.maxSymbols.toNat else asking

def candidate? (files : Files) (root : Path) (x : Node × Nat) : Option Candidate :=
  let source := snippet files root usualLines x.1
  if source.isEmpty then none else some ⟨x.2, x.1, source⟩

def candidates (files : Files) (root : Path) (settings : EnrichmentSettings) (nodes : List Node) :
    List Candidate :=
  (wanted settings nodes).filterMap (candidate? files root)

/-- A run over the batches: the sentences found, by place, the reports of batches that failed, and
how far the run was after each batch. -/
structure Run where
  found : List (Nat × String) := []
  errors : List String := []
  progress : List (Nat × Nat) := []
  model : Model
deriving Inhabited

abbrev Asker := List Item → Request

def askerFor (settings : EnrichmentSettings) (env : Environment) : Asker := fun items =>
  ⟨settings.provider ++ "/" ++ settings.model, env.get? (keyVariable settings.provider),
    addressOf? settings.provider, prompt items⟩

def Model.summarize (m : Model) (asker : Asker) (items : List Item) :
    Except Failure (List (Option String)) × Model :=
  let (reply, m) := m.ask (asker items)
  (reply.map fun text => summariesOf text items.length, m)

def placed (batch : List Candidate) (summaries : List (Option String)) : List (Nat × String) :=
  (batch.zip summaries).filterMap fun (c, s) => s.map fun text => (c.place, text)

/-- Asks about one symbol after the other; what fails is passed over. -/
def Model.summarizeEach (asker : Asker) : List Candidate → Model → List (Nat × String) × Model
  | [], m => ([], m)
  | c :: rest, m =>
    let (reply, m) := m.summarize asker [c.item]
    let found := placed [c] (reply.toOption.getD [])
    let (more, m) := summarizeEach asker rest m
    (found ++ more, m)

/-- One batch. `number` counts the batches, `done` the symbols up to the end of this one. -/
def Run.batch (asker : Asker) (total number done : Nat) (batch : List Candidate) (r : Run) : Run :=
  let (reply, m) := r.model.summarize asker (batch.map (·.item))
  let progress := r.progress ++ [(done, total)]
  match reply with
  | .error f =>
    { r with
      errors := r.errors ++ ["Batch " ++ toString number ++ ": " ++ f.message]
      progress := progress
      model := m }
  | .ok summaries =>
    if summaries.all Option.isNone && 1 < batch.length then
      let (found, m) := m.summarizeEach asker batch
      { r with found := r.found ++ found, progress := progress, model := m }
    else { r with found := r.found ++ placed batch summaries, progress := progress, model := m }

def Run.batches (asker : Asker) (total : Nat) :
    (number done : Nat) → List (List Candidate) → Run → Run
  | _, _, [], r => r
  | number, done, b :: rest, r =>
    batches asker total (number + 1) (done + b.length) rest
      (r.batch asker total number (done + b.length) b)

structure Outcome where
  nodes : List Node
  enriched : Nat := 0
  errors : List String := []
  progress : List (Nat × Nat) := []

def withSummaries (nodes : List Node) (found : List (Nat × String)) : List Node :=
  nodes.mapIdx fun i n =>
    match found.lookup i with
    | some text => { n with summary := text }
    | none => n

/-- Loads the variables of a project and looks for the files of the symbols that come into
question. -/
def prepare (files : Files) (root : Path) (settings : EnrichmentSettings) (nodes : List Node) :
    ExceptT Failure (StateM (Environment × Model)) Environment := do
  let env ← (← get).1.load files root
  modify fun s => (env, s.2)
  (wanted settings nodes).forM fun x => files.look (root.child x.1.loc.file)
  return env

def enrich (files : Files) (root : Path) (settings : EnrichmentSettings) (nodes : List Node) :
    ExceptT Failure (StateM (Environment × Model)) Outcome := do
  let env ← prepare files root settings nodes
  let chosen := candidates files root settings nodes
  if chosen.isEmpty then return { nodes := nodes }
  if settings.batchSize = 0 then throw .zeroStep
  let batches := if 0 < settings.batchSize then pieces settings.batchSize.toNat chosen else []
  let r := Run.batches (askerFor settings env) chosen.length 1 0 batches { model := (← get).2 }
  set (env, r.model)
  return ⟨withSummaries nodes r.found, r.found.length, r.errors, r.progress⟩

end CodeAtlas.Summary
