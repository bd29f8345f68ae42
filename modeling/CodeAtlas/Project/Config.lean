import CodeAtlas.Graph.Codec
import CodeAtlas.Project.Files
import CodeAtlas.Yaml.Reader

/-!
# Settings

The settings of a project are read from a file in its directory. They have a few named sections;
every value has a default. An unknown section is refused, an unknown value inside a section is
skipped.
-/

namespace CodeAtlas

structure IgnoreSettings where
  useGitignore : Bool := true
  useHgignore : Bool := true
  useOwnIgnore : Bool := true
  extraPatterns : List String := []
deriving Repr, Inhabited

structure ParsingSettings where
  languages : List String := ["php", "javascript", "python", "typescript", "go", "csharp"]
  maxFileSizeKb : Int := 500
deriving Repr, Inhabited

structure StoreSettings where
  host : String := "localhost"
  port : Int := 6333
  collectionPrefix : String := "hammy"
  embeddingModel : String := "all-MiniLM-L6-v2"
deriving Repr, Inhabited

structure HistorySettings where
  maxCommits : Int := 5000
  churnWindowDays : Int := 90
deriving Repr, Inhabited

structure EnrichmentSettings where
  enabled : Bool := false
  provider : String := "anthropic"
  model : String := "claude-haiku-4-5-20251001"
  batchSize : Int := 10
  skipIfSummary : Bool := true
  maxSymbols : Int := 0
deriving Repr, Inhabited

structure ExportSettings where
  host : String := "localhost"
  port : Int := 6379
  db : Int := 0
  password : Option String := none
  keyPrefix : String := "hammy"
  batchSize : Int := 200
  commitDepth : Int := 10
  queryEnabled : Bool := false
deriving Repr, Inhabited

structure ProjectSettings where
  name : String := "my-project"
  root : String := "."
deriving Repr, Inhabited

structure Config where
  project : ProjectSettings := {}
  ignore : IgnoreSettings := {}
  parsing : ParsingSettings := {}
  store : StoreSettings := {}
  history : HistorySettings := {}
  enrichment : EnrichmentSettings := {}
  exporting : ExportSettings := {}
deriving Repr, Inhabited

def IgnoreSettings.ofJson? (v : Json) : Option IgnoreSettings := do
  guard v.isObject
  return {
    useGitignore := ← v.fieldOr? "use_gitignore" Json.bool? true
    useHgignore := ← v.fieldOr? "use_hgignore" Json.bool? true
    useOwnIgnore := ← v.fieldOr? "use_hammyignore" Json.bool? true
    extraPatterns := ← v.fieldOr? "extra_patterns" (Json.list? Json.text?) [] }

def ParsingSettings.ofJson? (v : Json) : Option ParsingSettings := do
  guard v.isObject
  let d : ParsingSettings := {}
  return {
    languages := ← v.fieldOr? "languages" (Json.list? Json.text?) d.languages
    maxFileSizeKb := ← v.fieldOr? "max_file_size_kb" Json.int? d.maxFileSizeKb }

def StoreSettings.ofJson? (v : Json) : Option StoreSettings := do
  guard v.isObject
  let d : StoreSettings := {}
  return {
    host := ← v.fieldOr? "host" Json.text? d.host
    port := ← v.fieldOr? "port" Json.int? d.port
    collectionPrefix := ← v.fieldOr? "collection_prefix" Json.text? d.collectionPrefix
    embeddingModel := ← v.fieldOr? "embedding_model" Json.text? d.embeddingModel }

def HistorySettings.ofJson? (v : Json) : Option HistorySettings := do
  guard v.isObject
  let d : HistorySettings := {}
  return {
    maxCommits := ← v.fieldOr? "max_commits" Json.int? d.maxCommits
    churnWindowDays := ← v.fieldOr? "churn_window_days" Json.int? d.churnWindowDays }

def EnrichmentSettings.ofJson? (v : Json) : Option EnrichmentSettings := do
  guard v.isObject
  let d : EnrichmentSettings := {}
  return {
    enabled := ← v.fieldOr? "enabled" Json.bool? d.enabled
    provider := ← v.fieldOr? "provider" Json.text? d.provider
    model := ← v.fieldOr? "model" Json.text? d.model
    batchSize := ← v.fieldOr? "batch_size" Json.int? d.batchSize
    skipIfSummary := ← v.fieldOr? "skip_if_summary" Json.bool? d.skipIfSummary
    maxSymbols := ← v.fieldOr? "max_symbols" Json.int? d.maxSymbols }

def ExportSettings.ofJson? (v : Json) : Option ExportSettings := do
  guard v.isObject
  let d : ExportSettings := {}
  return {
    host := ← v.fieldOr? "host" Json.text? d.host
    port := ← v.fieldOr? "port" Json.int? d.port
    db := ← v.fieldOr? "db" Json.int? d.db
    password := ← v.fieldOr? "password" (Json.optional? Json.text?) d.password
    keyPrefix := ← v.fieldOr? "key_prefix" Json.text? d.keyPrefix
    batchSize := ← v.fieldOr? "batch_size" Json.int? d.batchSize
    commitDepth := ← v.fieldOr? "commit_depth" Json.int? d.commitDepth
    queryEnabled := ← v.fieldOr? "query_enabled" Json.bool? d.queryEnabled }

def ProjectSettings.ofJson? (v : Json) : Option ProjectSettings := do
  guard v.isObject
  let d : ProjectSettings := {}
  return {
    name := ← v.fieldOr? "name" Json.text? d.name
    root := ← v.fieldOr? "root" Json.text? d.root }

def Config.sections : List String :=
  ["project", "ignore", "parsing", "qdrant", "vcs", "enrichment", "export"]

def Config.ofJson? (v : Json) : Option Config :=
  match v with
  | .obj fields => do
    guard (fields.all fun f => Config.sections.contains f.1)
    let exports := (v.get? "export").getD (.obj [])
    guard exports.isObject
    return {
      project := ← v.fieldOr? "project" ProjectSettings.ofJson? {}
      ignore := ← v.fieldOr? "ignore" IgnoreSettings.ofJson? {}
      parsing := ← v.fieldOr? "parsing" ParsingSettings.ofJson? {}
      store := ← v.fieldOr? "qdrant" StoreSettings.ofJson? {}
      history := ← v.fieldOr? "vcs" HistorySettings.ofJson? {}
      enrichment := ← v.fieldOr? "enrichment" EnrichmentSettings.ofJson? {}
      exporting := ← exports.fieldOr? "redis" ExportSettings.ofJson? {} }
  | _ => none

def Config.toJson (c : Config) : Json :=
  .obj [
    ("project", .obj [("name", .str c.project.name), ("root", .str c.project.root)]),
    ("ignore", .obj [("use_gitignore", .bool c.ignore.useGitignore),
      ("use_hgignore", .bool c.ignore.useHgignore),
        ("use_hammyignore", .bool c.ignore.useOwnIgnore),
      ("extra_patterns", .texts c.ignore.extraPatterns)]),
    ("parsing", .obj [("languages", .texts c.parsing.languages),
      ("max_file_size_kb", .int c.parsing.maxFileSizeKb)]),
    ("qdrant", .obj [("host", .str c.store.host), ("port", .int c.store.port),
      ("collection_prefix", .str c.store.collectionPrefix),
      ("embedding_model", .str c.store.embeddingModel)]),
    ("vcs", .obj [("max_commits", .int c.history.maxCommits),
      ("churn_window_days", .int c.history.churnWindowDays)]),
    ("enrichment", .obj [("enabled", .bool c.enrichment.enabled),
      ("provider", .str c.enrichment.provider), ("model", .str c.enrichment.model),
      ("batch_size", .int c.enrichment.batchSize),
        ("skip_if_summary", .bool c.enrichment.skipIfSummary),
      ("max_symbols", .int c.enrichment.maxSymbols)]),
    ("export",
      .obj [("redis", .obj [("host", .str c.exporting.host), ("port", .int c.exporting.port),
      ("db", .int c.exporting.db), ("password", .ofText? c.exporting.password),
      ("key_prefix", .str c.exporting.keyPrefix), ("batch_size", .int c.exporting.batchSize),
      ("commit_depth", .int c.exporting.commitDepth),
        ("query_enabled", .bool c.exporting.queryEnabled)])])]

/-- Reads the text of a settings file. An empty file leaves everything at its default. -/
def Config.ofText (text : String) : Except Failure Config :=
  match Yaml.parse? text with
  | none => .error .malformedSettings
  | some .null => .ok {}
  | some (.map entries) =>
    if Yaml.hasTextKeys entries then
      match (Yaml.toJson? (.map entries)).bind Config.ofJson? with
      | some config => .ok config
      | none => .error .invalidSettings
    else .error .settingsNotNamed
  | some _ => .error .settingsNotNamed

def Config.places (projectRoot : Path) : List Path :=
  [projectRoot.child "hammy.yaml", projectRoot.child "config/hammy.yaml"]

/-- Loads the settings of a project; the first file that is there counts. The root of the project is
counted from its directory. -/
def Config.load (files : Files) (projectRoot : Path) : Except Failure Config := do
  let config ← match ← (Config.places projectRoot).findM? files.has with
    | some p => do
      let text ← files.read p
      Config.ofText text
    | none => pure {}
  let root := files.resolve (projectRoot.child config.project.root)
  return { config with project := { config.project with root := root.toText } }

end CodeAtlas
