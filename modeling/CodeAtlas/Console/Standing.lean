import CodeAtlas.Console.Output

/-!
# The standing of a project
-/

namespace CodeAtlas.Console

def settingsTable (c : Config) : Printed :=
  .table "Hammy Status" ["Setting", "Value"]
    [["Project root", c.project.root], ["Languages", Text.join ", " c.parsing.languages],
      ["Max file size", toString c.parsing.maxFileSizeKb ++ " KB"],
      ["Qdrant", c.store.host ++ ":" ++ toString c.store.port],
        ["Embedding model", c.store.embeddingModel]]

def storeSizes (c : Config) : HostM (List (Vector.Collection × Nat)) := do
  let catalog ← Host.openCatalog c.store c.project.name
  Host.onVectors catalog.sizes

def status (root : Path) : ConsoleM Unit := do
  let config ← loadConfig root
  put (settingsTable config)
  match ← attempt (storeSizes config) with
  | .ok sizes =>
    put (.table "Qdrant Collections" ["Collection", "Points"]
      (sizes.map fun (k, n) => [k.word, toString n]))
  | .error f => say ("[yellow]Qdrant not available:[/yellow] " ++ f.message)
  match History.detect (← getHost).files (Path.ofText config.project.root) with
  | .ok system => say ("VCS: " ++ system.program ++ " detected")
  | .error _ => say "[yellow]No VCS detected[/yellow]"

end CodeAtlas.Console
