import CodeAtlas.Analysis.Bridge
import CodeAtlas.Index.Build
import CodeAtlas.Report.Directory

/-!
# Reports on the index itself
-/

namespace CodeAtlas.Report

def tally (word : Node → String) (nodes : List Node) : List (String × Nat) :=
  let counts := OrderedMap.groupBy word nodes
  (sortTexts counts.keys).map fun k => (k, ((counts.get? k).getD []).length)

def memoryLine (count : Nat) : String :=
  if count ==
    0 then "\nBrain entries: none yet — use store_context to save findings across sessions."
  else "\nBrain entries: " ++ toString count ++
    " stored — call recall_context to load prior research."

def statusReport (p : ProjectSettings) (g : Index.Graph) (notes? : Option Nat) : String :=
  let bridges := (Bridge.resolve g.nodes g.edges).length
  Text.join "\n" (
    ["Project: " ++ p.name, "Root: " ++ p.root,
      "Total files: " ++ toString (distinct (g.nodes.map (·.loc.file))).length,
      "Total symbols: " ++ toString g.nodes.length, "Total edges: " ++ toString g.edges.length, "",
      "By language:"] ++
    (tally (·.language) g.nodes).map (fun (l, n) => "  " ++ l ++ ": " ++ toString n ++
      " symbols") ++
    ["\nBy type:"] ++ (tally (·.kind.word) g.nodes).map (fun (k, n) => "  " ++ k ++ ": " ++
      toString n) ++
    (if bridges == 0 then [] else ["\nCross-language bridges: " ++ toString bridges]) ++
    (notes?.map memoryLine).toList)

structure RenewalRequest where
  updateStore : Bool := false
  enrich : Bool := false

def RenewalRequest.options (r : RenewalRequest) (hasStore : Bool) : Index.BuildOptions :=
  let store := r.updateStore && hasStore
  ⟨store, r.enrich && store⟩

def RenewalRequest.remarks (r : RenewalRequest) (hasStore : Bool) : String :=
  (if r.updateStore && !hasStore then " (Qdrant not available — skipping embedding update)"
    else "") ++
    (if r.enrich && !(r.options hasStore).store then " (enrich requires update_qdrant=true)"
      else "")

def renewalReport (r : RenewalRequest) (hasStore : Bool) (done : Index.Report) : String :=
  let o := r.options hasStore
  let errors := if done.errors.isEmpty then []
    else ("  Errors: " ++ toString done.errors.length) :: (done.errors.take 5).map ("    - " ++ ·)
  Text.join "\n" (
    ["Reindex complete" ++ r.remarks hasStore, "  Files processed: " ++
      toString done.filesProcessed, "  Files skipped: " ++ toString done.filesSkipped,
      "  Symbols extracted: " ++ toString done.nodesExtracted,
      "  Edges extracted: " ++ toString done.edgesExtracted] ++
    (if o.store then ["  Symbols indexed in Qdrant: " ++ toString done.nodesIndexed] else []) ++
    (if o.enrich then ["  Symbols enriched with LLM summaries: " ++ toString done.nodesEnriched]
      else []) ++
    errors)

end CodeAtlas.Report
