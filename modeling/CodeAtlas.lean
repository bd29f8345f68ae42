import CodeAtlas.Main
import CodeAtlas.Proofs.AttachedComments
import CodeAtlas.Proofs.Attribution
import CodeAtlas.Proofs.Bridges
import CodeAtlas.Proofs.Callees
import CodeAtlas.Proofs.CallerTotals
import CodeAtlas.Proofs.ChangedDefinitions
import CodeAtlas.Proofs.CollectionNames
import CodeAtlas.Proofs.Debounce
import CodeAtlas.Proofs.Dialects
import CodeAtlas.Proofs.DirectoryListing
import CodeAtlas.Proofs.Diversity
import CodeAtlas.Proofs.Edges
import CodeAtlas.Proofs.Enrichment
import CodeAtlas.Proofs.Explanations
import CodeAtlas.Proofs.ExportedNotes
import CodeAtlas.Proofs.FailedUpdates
import CodeAtlas.Proofs.FirstHop
import CodeAtlas.Proofs.HotspotOrder
import CodeAtlas.Proofs.IgnoreLayers
import CodeAtlas.Proofs.ImportedModules
import CodeAtlas.Proofs.LineAuthors
import CodeAtlas.Proofs.LiveNotes
import CodeAtlas.Proofs.Neighbourhood
import CodeAtlas.Proofs.QualifiedTypes
import CodeAtlas.Proofs.RankFusion
import CodeAtlas.Proofs.RoutePaths
import CodeAtlas.Proofs.Serving
import CodeAtlas.Proofs.SourceRows
import CodeAtlas.Proofs.StoredSymbols
import CodeAtlas.Proofs.WatchCoverage
import CodeAtlas.Proofs.WordIndex
import CodeAtlas.Report.ContextPack
