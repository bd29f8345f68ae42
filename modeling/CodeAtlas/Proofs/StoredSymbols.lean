import Mathlib.Data.Set.Function
import Mathlib.Data.Set.Lattice
import CodeAtlas.Proofs.Isolation

/-!
# Symbols that stay in the store

Indexing puts the symbols of a project into its collection and takes none out. So the collection is
no picture of the latest run: it holds what any run ever found.
-/

namespace CodeAtlas.Vector

open List

/-! ## Points of symbols

Identifiers are all that counts of a point here. -/

def idsIn (payloads : List Payload) : Set String :=
  {id | ∃ p ∈ payloads, p.lookup "node_id" = some (.str id)}

def symbolIds (nodes : List Node) : Set String :=
  {id | ∃ n ∈ nodes, n.isComment = false ∧ n.id = id}

/-- The points are those of symbols with these identifiers, and all of them are there. -/
structure SymbolPoints (ids : Set String) (points : List Point) : Prop where
  sound : ∀ p ∈ points, ∃ n : Node, n.id ∈ ids ∧ p.payload = symbolPayload n
  complete : ∀ id ∈ ids, ∃ p ∈ points, ∃ n : Node, n.id = id ∧ p.id = pointId id ∧
    p.payload = symbolPayload n

variable {ids : Set String} {points : List Point} {n : Node} {p : Point}

theorem lookup_symbolPayload (n : Node) : (symbolPayload n).lookup "node_id" = some (.str n.id) :=
  rfl

theorem lookup_shown {hit : Hit} (hpayload : hit.point.payload = symbolPayload n) :
    hit.shown.lookup "node_id" = some (.str n.id) := by
  unfold Hit.shown
  rw [hpayload]
  rfl

namespace SymbolPoints

theorem nil : SymbolPoints ∅ [] :=
  ⟨fun _ hp => absurd hp not_mem_nil, fun _ hid => absurd hid (Set.notMem_empty _)⟩

theorem put (h : SymbolPoints ids points) (hdistinct : Set.InjOn pointId (insert n.id ids))
    (hid : p.id = pointId n.id) (hpayload : p.payload = symbolPayload n) :
    SymbolPoints (insert n.id ids) (Store.putPoint points p) where
  sound := by
    intro q hq
    rcases mem_append.1 hq with hq | hq
    · obtain ⟨m, hm, hpayload'⟩ := h.sound q (mem_of_mem_filter hq)
      exact ⟨m, Set.mem_insert_of_mem _ hm, hpayload'⟩
    · rw [mem_singleton.1 hq]
      exact ⟨n, Set.mem_insert _ _, hpayload⟩
  complete := by
    intro id hmem
    by_cases hsame : id = n.id
    · subst hsame
      exact ⟨p, mem_append_right _ mem_cons_self, n, rfl, hid, hpayload⟩
    · have hold : id ∈ ids := (Set.mem_insert_iff.1 hmem).resolve_left hsame
      obtain ⟨q, hq, m, hm, hqid, hpayload'⟩ := h.complete id hold
      -- it is not replaced: its number would be the one of the new symbol
      have hkept : (q.id != p.id) := by
        rw [bne_iff_ne, hqid, hid]
        exact fun heq => hsame (hdistinct hmem (Set.mem_insert _ _) heq)
      exact ⟨q, mem_append_left _ (mem_filter.2 ⟨hq, hkept⟩), m, hm, hqid, hpayload'⟩

theorem putAll (h : SymbolPoints ids points) (vectorOf : Node → List Float) {nodes : List Node}
    (hdistinct : Set.InjOn pointId (ids ∪ {id | ∃ n ∈ nodes, n.id = id})) :
    SymbolPoints (ids ∪ {id | ∃ n ∈ nodes, n.id = id})
      ((nodes.map fun n => symbolPoint n (vectorOf n)).foldl Store.putPoint points) := by
  induction nodes generalizing ids points with
  | nil => simpa using h
  | cons n nodes ih =>
    have hunion : ids ∪ {id | ∃ m ∈ n :: nodes, m.id = id} =
        insert n.id ids ∪ {id | ∃ m ∈ nodes, m.id = id} := by
      ext id
      simp only [mem_cons, exists_eq_or_imp, Set.mem_union, Set.mem_ofPred_eq, Set.mem_insert_iff,
        eq_comm (a := id)]
      tauto
    rw [hunion] at hdistinct ⊢
    exact ih (h.put (hdistinct.mono Set.subset_union_left) rfl rfl) hdistinct

theorem of_mem_iff (h : SymbolPoints ids points) {points' : List Point}
    (hmem : ∀ p, p ∈ points' ↔ p ∈ points) :
    SymbolPoints ids points' where
  sound p hp := h.sound p ((hmem p).1 hp)
  complete id hid := by
    obtain ⟨p, hp, hpoint⟩ := h.complete id hid
    exact ⟨p, (hmem p).2 hp, hpoint⟩

/-- Identifiers are read back from what is stored. -/
theorem idsIn_eq (h : SymbolPoints ids points) : idsIn (points.map (·.payload)) = ids := by
  ext id
  constructor
  · rintro ⟨payload, hmem, hid⟩
    obtain ⟨p, hp, rfl⟩ := mem_map.1 hmem
    obtain ⟨n, hn, hpayload⟩ := h.sound p hp
    rw [hpayload, lookup_symbolPayload] at hid
    obtain rfl : n.id = id := by simpa using hid
    exact hn
  · intro hid
    obtain ⟨p, hp, n, rfl, -, hpayload⟩ := h.complete id hid
    exact ⟨p.payload, mem_map_of_mem hp, by rw [hpayload, lookup_symbolPayload]⟩

end SymbolPoints

theorem run_searchSymbols {s : Store} {c : Catalog} (hs : s.Willing) (hrank : s.RanksAll)
    (h : SymbolPoints ids (s.points (c.name .symbols))) (question : String) {limit : Int}
    (hlimit : (s.points (c.name .symbols)).length ≤ limit) :
    ∃ found s', (c.searchSymbols question limit "" "").run.run s = (.ok found, s') ∧
      idsIn found = ids := by
  set points := s.points (c.name .symbols)
  have hmeeting : meeting [] points = points := filter_eq_self.2 fun _ _ => rfl
  set hits := s.rank (s.vectorOf question) points
  have hperm : (hits.map (·.point)).Perm points := hrank _ _
  have hall : leading limit hits = hits := by
    apply leading_of_length_le
    rwa [← length_map (f := Hit.point), hperm.length_eq]
  refine ⟨hits.map Hit.shown, { s with made := s.made ++ [.query] }, ?_, ?_⟩
  · have hquery := hs.run_query (c.name .symbols) (s.vectorOf question) [] limit
    rw [hmeeting, hall] at hquery
    rw [Catalog.searchSymbols, run_bind_ok (run_get s),
      show Catalog.symbolConditions "" "" = [] from rfl, run_bind_ok hquery]
    rfl
  · -- a hit names the symbol of its point
    have hnames : (hits.map Hit.shown).map (·.lookup "node_id") =
        ((hits.map (·.point)).map (·.payload)).map (·.lookup "node_id") := by
      rw [map_map, map_map, map_map]
      refine map_congr_left fun hit hmem => ?_
      obtain ⟨n, -, hpayload⟩ := h.sound _ (hperm.subset (mem_map_of_mem hmem))
      simp only [Function.comp_apply, lookup_shown hpayload, hpayload, lookup_symbolPayload]
    rw [← (h.of_mem_iff fun p => hperm.mem_iff).idsIn_eq]
    ext id
    have hmem := congrArg (some (Json.str id) ∈ ·) hnames
    simpa [idsIn] using hmem

theorem SymbolPoints.keep (h : SymbolPoints ids points) (s : Store) {nodes : List Node}
    (hdistinct : Set.InjOn pointId (ids ∪ symbolIds nodes)) :
    SymbolPoints (ids ∪ symbolIds nodes) ((pointsFor s.vectorOf nodes).foldl Store.putPoint
      points) := by
  have hids : symbolIds nodes = {id | ∃ n ∈ nodes.filter fun n => !n.isComment, n.id = id} := by
    ext id
    simp only [symbolIds, mem_filter, Bool.not_eq_true', Set.mem_ofPred_eq, and_assoc]
  rw [hids] at hdistinct ⊢
  exact h.putAll _ hdistinct

end CodeAtlas.Vector

namespace CodeAtlas.Index

open CodeAtlas.Vector
open List hiding map_const

/-- A run of indexing with the vector store: what it is asked for, and the machine on which it runs.
The store is the one that the runs before it left. -/
structure StoringRun where
  config : Config
  catalog? : Option Catalog := none
  enrich : Bool := false
  host : Host

namespace StoringRun

def catalog (r : StoringRun) : Catalog :=
  catalogOf r.config r.catalog?

def nodes (r : StoringRun) : List Node :=
  match readProject r.config r.host with
  | .ok (_, outcomes) => (graphOf outcomes).nodes
  | .error _ => []

def perform (r : StoringRun) (vectors : Option Store) : Except Failure Build × Host :=
  (build r.config r.catalog? ⟨true, r.enrich⟩).run.run { r.host with vectors := vectors }

end StoringRun

theorem symbolIds_eq (nodes : List Node) :
    symbolIds nodes = {id | (id, false) ∈ nodes.map fun n => (n.id, n.isComment)} := by
  ext id
  simp only [symbolIds, mem_map, Prod.mk.injEq, Set.mem_ofPred_eq, and_comm]

theorem symbolIds_withSummaries (nodes : List Node) (found : List (Nat × String)) :
    symbolIds (Summary.withSummaries nodes found) = symbolIds nodes := by
  rw [symbolIds_eq, symbolIds_eq]
  congr! 3
  unfold Summary.withSummaries
  apply ext_getElem
  · simp only [length_map, length_mapIdx]
  · intro i _ _
    simp only [getElem_map, getElem_mapIdx]
    split <;> rfl

theorem symbolIds_enrich {files : Files} {root : Path} {settings : EnrichmentSettings}
    {nodes : List Node} {x y : Environment × Summary.Model} {o : Summary.Outcome}
    (hrun : (Summary.enrich files root settings nodes).run.run x = (.ok o, y)) :
    symbolIds o.nodes = symbolIds nodes := by
  rw [Summary.enrich] at hrun
  obtain ⟨env, x', -, hrun⟩ := run_bind_eq_ok hrun
  dsimp only at hrun
  split at hrun
  · obtain ⟨rfl, -⟩ := run_pure_eq_ok hrun
    rfl
  split at hrun
  · cases (Prod.mk.inj hrun).1
  · rw [run_bind_ok (run_get _), run_bind_ok (run_set _ _)] at hrun
    obtain ⟨rfl, -⟩ := run_pure_eq_ok hrun
    exact symbolIds_withSummaries nodes _

theorem run_enrichNodes (root : Path) (settings : EnrichmentSettings) (nodes : List Node)
    (h : Host) :
    ∃ outcome environment model, (enrichNodes root settings nodes).run.run h =
        (outcome, { h with environment := environment, model := model }) ∧
      ∀ o, outcome = .ok o → symbolIds o.nodes = symbolIds nodes := by
  rw [enrichNodes, run_bind_ok (run_get h)]
  rcases hrun : (Summary.enrich h.files root settings nodes).run.run
    (h.environment, h.model) with ⟨f | o, env, model⟩
  · exact ⟨.error f, env, model, rfl, nofun⟩
  · refine ⟨.ok o, env, model, rfl, ?_⟩
    rintro _ ⟨⟩
    exact symbolIds_enrich hrun

theorem run_keepSummaries {c : Catalog} {h : Host} {s : Store} {ids : Set String}
    (hs : h.vectors = some s)
    (hwilling : s.Willing) (hpoints : SymbolPoints ids (s.collection (c.name .symbols)))
    (hdistinct : Set.InjOn pointId ids) {o : Summary.Outcome} (ho : symbolIds o.nodes ⊆ ids) :
    ∃ s', (keepSummaries (some c) o).run.run h = (.ok (), { h with vectors := some s' }) ∧
      s'.Willing ∧ s'.rank = s.rank ∧ SymbolPoints ids (s'.collection (c.name .symbols)) := by
  have hunion : ids ∪ symbolIds o.nodes = ids := Set.union_eq_self_of_subset_right ho
  rw [keepSummaries]
  split
  · obtain ⟨s', hkeep, hwilling', hrank, hput⟩ := hwilling.run_keepSymbols c o.nodes
    have hpoints' :=
      hpoints.keep s (show Set.InjOn pointId (ids ∪ symbolIds o.nodes) by rwa [hunion])
    refine ⟨s', ?_, hwilling', hrank, ?_⟩
    · unfold discard
      rw [map_const, Function.comp_apply, run_map, Host.run_onVectors hs hkeep]
      rfl
    · rwa [hput, ← hunion]
  · refine ⟨s, ?_, hwilling, rfl, hpoints⟩
    rw [← hs]
    rfl

theorem symbolIds_nil : symbolIds [] = ∅ := by
  simp [symbolIds]

/-- **The step.** Whatever comes of a run on a store that refuses nothing, the store then holds the
symbols that were read besides those from before, and a run that succeeds gives the symbols that
were read. -/
theorem StoringRun.perform_store (r : StoringRun) {s : Store} {ids : Set String} (hs : s.Willing)
    (hpoints : SymbolPoints ids (s.collection (r.catalog.name .symbols)))
    (hdistinct : Set.InjOn pointId (ids ∪ symbolIds r.nodes)) :
    ∃ s', (r.perform (some s)).2.vectors = some s' ∧ s'.Willing ∧ s'.rank = s.rank ∧
      SymbolPoints (ids ∪ symbolIds r.nodes) (s'.collection (r.catalog.name .symbols)) ∧
      ∀ b, (r.perform (some s)).1 = .ok b → symbolIds b.graph.nodes = symbolIds r.nodes := by
  obtain ⟨config, catalog?, enrich, host⟩ := r
  let h : Host := { host with vectors := some s }
  have hvectors : h.vectors = some s := rfl
  have hread : readProject config h = readProject config host := rfl
  unfold StoringRun.perform StoringRun.nodes StoringRun.catalog at *
  dsimp only at *
  change ∃ s', ((build config catalog? ⟨true, enrich⟩).run.run h).2.vectors = some s' ∧ s'.Willing ∧
    _ ∧ _ ∧ ∀ b, ((build config catalog? ⟨true, enrich⟩).run.run h).1 = .ok b → _
  rw [build, run_bind_ok (run_get h), hread]
  rcases hproject : readProject config host with f | ⟨root, outcomes⟩
  · -- a project that cannot be read leaves the store as it is
    rw [run_bind_error (run_except _ h)]
    refine ⟨s, rfl, hs, rfl, by rwa [symbolIds_nil, Set.union_empty], fun b hb => ?_⟩
    cases hb
  rw [hproject] at hdistinct
  rw [run_bind_ok (run_except _ h)]
  dsimp only at hdistinct ⊢
  split
  · next hempty =>
    rw [List.isEmpty_iff.1 hempty, symbolIds_nil, Set.union_empty]
    refine ⟨s, rfl, hs, rfl, hpoints, ?_⟩
    rintro b ⟨⟩
    rw [List.isEmpty_iff.1 hempty, symbolIds_nil]
  · -- the symbols are put in, and once more if they get summaries, under the same identifiers
    set c := catalogOf config catalog?
    obtain ⟨s₁, s', hkeep, hs', hrank, hput⟩ :=
      run_keepSymbols hvectors hs c (graphOf outcomes).nodes
    have hpoints' := hpoints.keep s₁ hdistinct
    rw [← hput] at hpoints'
    rw [run_bind_ok (run_catalogFor hvectors config catalog?), run_bind_ok hkeep]
    split
    · refine ⟨s', rfl, hs', hrank, hpoints', ?_⟩
      rintro b ⟨⟩
      rfl
    · obtain ⟨outcome, environment, model, henrich, hsame⟩ :=
        run_enrichNodes root config.enrichment (graphOf outcomes).nodes
          { h with vectors := some s' }
      cases outcome with
      | error f =>
        rw [run_bind_error henrich]
        refine ⟨s', rfl, hs', hrank, hpoints', fun b hb => ?_⟩
        cases hb
      | ok o =>
        have ho := hsame o rfl
        obtain ⟨s'', hsummaries, hs'', hrank'', hpoints''⟩ := run_keepSummaries
          (h := { h with vectors := some s', environment := environment, model := model }) rfl hs'
            hpoints' hdistinct
          (o := o) (ho ▸ Set.subset_union_right)
        rw [run_bind_ok henrich, run_bind_ok hsummaries]
        refine ⟨s'', rfl, hs'', hrank''.trans hrank, hpoints'', ?_⟩
        rintro b ⟨⟩
        exact ho

def storeAfter (start : Option Store) : List StoringRun → Option Store
  | [] => start
  | r :: past => (r.perform (storeAfter start past)).2.vectors

def readIds (runs : List StoringRun) : Set String :=
  {id | ∃ r ∈ runs, id ∈ symbolIds r.nodes}

def storedIds (c : Catalog) (s : Store) : Set String :=
  idsIn ((s.points (c.name .symbols)).map (·.payload))

theorem readIds_cons (r : StoringRun) (past : List StoringRun) :
    readIds (r :: past) = readIds past ∪ symbolIds r.nodes := by
  ext id
  simp only [readIds, mem_cons, exists_eq_or_imp, Set.mem_ofPred_eq, Set.mem_union, or_comm]

variable {c : Catalog} {start : Store} {past : List StoringRun} {r : StoringRun}

/-- **The run.** The store holds what any of the runs read. -/
theorem exists_storeAfter (hstart : start.Willing) (hempty : start.points (c.name .symbols) = [])
    {runs : List StoringRun}
    (hcatalog : ∀ r ∈ runs, r.catalog = c) (hdistinct : Set.InjOn pointId (readIds runs)) :
    ∃ s, storeAfter (some start) runs = some s ∧ s.Willing ∧ s.rank = start.rank ∧
      SymbolPoints (readIds runs) (s.collection (c.name .symbols)) := by
  induction runs with
  | nil =>
    have hnone : start.collection (c.name .symbols) = [] := by
      refine eq_nil_iff_forall_not_mem.2 fun p hp => ?_
      rw [← Store.mem_points, hempty] at hp
      cases hp
    refine ⟨start, rfl, hstart, rfl, ?_⟩
    rw [hnone, show readIds [] = ∅ by simp [readIds]]
    exact SymbolPoints.nil
  | cons r past ih =>
    rw [readIds_cons] at hdistinct ⊢
    obtain ⟨s, hs, hwilling, hrank, hpoints⟩ := ih (fun q hq => hcatalog q (mem_cons_of_mem r hq))
      (hdistinct.mono Set.subset_union_left)
    obtain rfl := hcatalog r mem_cons_self
    obtain ⟨s', hs', hwilling', hrank', hpoints', -⟩ := r.perform_store hwilling hpoints hdistinct
    exact ⟨s', by rw [storeAfter, hs, hs'], hwilling', hrank'.trans hrank, hpoints'⟩

/-- **The store holds what any run found.** Let runs follow each other on one store that refuses
nothing and has no symbols at first; before each run anything but the store may change. Where
distinct symbols have distinct points, the identifiers that are stored after a run are those of its
symbols and of all symbols that were ever read. They are those of its symbols alone if and only if
it found everything again that an earlier run had read, and a search that may give all points finds
every one of them. -/
theorem storedIds_eq_latest_iff {b : Build} (hstart : start.Willing)
    (hempty : start.points (c.name .symbols) = []) (hcatalog : ∀ q ∈ r :: past, q.catalog = c)
    (hdistinct : Set.InjOn pointId (readIds (r :: past)))
    (hrank : start.RanksAll) (hrun : (r.perform (storeAfter (some start) past)).1 = .ok b) :
    ∃ s, storeAfter (some start) (r :: past) = some s ∧
      storedIds c s = symbolIds b.graph.nodes ∪ readIds past ∧
      (storedIds c s = symbolIds b.graph.nodes ↔ ∀ q ∈ past,
        symbolIds q.nodes ⊆ symbolIds b.graph.nodes) ∧
      ∀ question limit, (s.points (c.name .symbols)).length ≤ (limit : Int) →
        ∃ found s', (c.searchSymbols question limit "" "").run.run s = (.ok found, s') ∧
          idsIn found = storedIds c s := by
  rw [readIds_cons] at hdistinct
  obtain ⟨s, hs, hwilling, hsame, hpoints⟩ := exists_storeAfter hstart hempty
    (fun q hq => hcatalog q (mem_cons_of_mem r hq)) (hdistinct.mono Set.subset_union_left)
  obtain rfl := hcatalog r mem_cons_self
  obtain ⟨s', hs', hwilling', hsame', hpoints', hbuild⟩ :=
    r.perform_store hwilling hpoints hdistinct
  rw [hs] at hrun
  rw [← hbuild b hrun] at hpoints'
  have hsorted := hpoints'.of_mem_iff fun p => Store.mem_points (s := s') (p := p)
  have hstored : storedIds r.catalog s' = symbolIds b.graph.nodes ∪ readIds past :=
    hsorted.idsIn_eq.trans (Set.union_comm _ _)
  refine ⟨s', by rw [storeAfter, hs, hs'], hstored, ?_, fun question limit hlimit => ?_⟩
  · rw [hstored, Set.union_eq_left]
    constructor
    · exact fun hsub q hq id hid => hsub ⟨q, hq, hid⟩
    · rintro hsub id ⟨q, hq, hid⟩
      exact hsub q hq hid
  · rw [hstored, Set.union_comm]
    have hrank' : s'.RanksAll := by
      unfold Store.RanksAll
      rwa [hsame', hsame]
    exact run_searchSymbols hwilling' hrank' hsorted question hlimit

def renamedText (renamed : Bool) : String :=
  if renamed then "function g(){}" else soundText

def renamedHost (renamed : Bool) : Host where
  files := flatFiles [("a.js", .file (renamedText renamed))]
  grammar := ⟨[((.javascript, renamedText renamed), .node "program" 0 14 [soundFunction])]⟩

def renamedRun (renamed : Bool) : StoringRun where
  config := twoFilesConfig
  catalog? := some ⟨"atlas"⟩
  host := renamedHost renamed

def renamedId (renamed : Bool) : String :=
  Node.makeId "a.js" (if renamed then "g" else "f")

theorem readProject_renamed (renamed : Bool) :
    ∃ outcomes, readProject twoFilesConfig (renamedHost renamed) = .ok (twoFilesRoot, outcomes) ∧
      ((graphOf outcomes).nodes.map fun n => (n.id, n.isComment)) =
        [(renamedId renamed, false)] := by
  have heligible : eligible twoFilesConfig (renamedHost renamed).files =
      .ok (twoFilesRoot, ⟨[.python, .javascript]⟩,
        [(⟨⟨true, ["p", "a.js"]⟩, some .javascript, 14⟩ : FileEntry)].map .ok) := by
    apply eligible_flat
    · exact pairwise_singleton _ _
    · rfl
    · -- both states at once, so that the ignore patterns are read only once
      revert renamed
      decide +kernel
  refine ⟨_, readProject_eq heligible (forall_mem_singleton.2 (by cases renamed <;> decide)), ?_⟩
  rw [graphOf_eq_graphFrom]
  clear heligible
  revert renamed
  decide +kernel

theorem symbolIds_renamed (renamed : Bool) :
    symbolIds (renamedRun renamed).nodes = {renamedId renamed} := by
  obtain ⟨outcomes, hread, hnodes⟩ := readProject_renamed renamed
  rw [StoringRun.nodes, show readProject (renamedRun renamed).config (renamedRun renamed).host =
    _ from hread, symbolIds_eq, hnodes]
  simp

theorem perform_renamed (renamed : Bool) {s : Store} (hs : s.Willing) :
    ∃ b, ((renamedRun renamed).perform (some s)).1 = .ok b ∧ symbolIds b.graph.nodes =
      {renamedId renamed} := by
  obtain ⟨outcomes, hread, hnodes⟩ := readProject_renamed renamed
  have hread : readProject twoFilesConfig { renamedHost renamed with vectors := some s } =
      .ok (twoFilesRoot, outcomes) :=
    hread
  have hstore : true → StoreWilling { renamedHost renamed with vectors := some s } :=
    fun _ => ⟨s, rfl, hs⟩
  obtain ⟨h', hbuild⟩ := build_run (some ⟨"atlas"⟩) hread hstore
  refine ⟨_, congrArg Prod.fst hbuild, ?_⟩
  rw [symbolIds_eq, hnodes]
  simp

theorem pointId_renamed_ne : pointId (renamedId true) ≠ pointId (renamedId false) := by
  decide +kernel

/-- The old name of the function is still stored after the run that finds the new one. -/
theorem storedIds_eq_latest_iff_renamed : ∃ b s,
    ((renamedRun true).perform (storeAfter (some .unranked) [renamedRun false])).1 = .ok b ∧
      storeAfter (some .unranked) [renamedRun true, renamedRun false] = some s ∧
      symbolIds b.graph.nodes = {renamedId true} ∧ storedIds ⟨"atlas"⟩ s =
        {renamedId true, renamedId false} ∧
      storedIds ⟨"atlas"⟩ s ≠ symbolIds b.graph.nodes := by
  have hwilling : Store.unranked.Willing := fun _ _ => rfl
  have hempty : Store.unranked.points (Catalog.name ⟨"atlas"⟩ .symbols) = [] := by
    simp [Store.points, Store.unranked, OrderedMap.get?]
  have hcatalog : ∀ q ∈ [renamedRun true, renamedRun false], q.catalog = ⟨"atlas"⟩ := by
    intro q hq
    rcases mem_pair.1 hq with rfl | rfl <;> rfl
  have hids : readIds [renamedRun true, renamedRun false] = {renamedId false, renamedId true} := by
    rw [readIds_cons, readIds_cons, symbolIds_renamed, symbolIds_renamed,
      show readIds [] = ∅ by simp [readIds], Set.empty_union, Set.singleton_union]
  have hdistinct : Set.InjOn pointId (readIds [renamedRun true, renamedRun false]) := by
    rw [hids, Set.injOn_pair]
    exact fun heq => absurd heq.symm pointId_renamed_ne
  obtain ⟨s, hs, hs', -, -⟩ :=
    exists_storeAfter hwilling hempty (fun q hq => hcatalog q (mem_cons_of_mem _ hq))
    (hdistinct.mono (by rw [readIds_cons (renamedRun true)]; exact Set.subset_union_left))
  obtain ⟨b, hrun, hlatest⟩ := perform_renamed true hs'
  rw [← hs] at hrun
  obtain ⟨s'', hafter, hstored, hiff, -⟩ :=
    storedIds_eq_latest_iff hwilling hempty hcatalog hdistinct Store.ranksAll_unranked hrun
  refine ⟨b, s'', hrun, hafter, hlatest, ?_, ?_⟩
  · rw [hstored, hlatest, readIds_cons, symbolIds_renamed,
      show readIds [] = ∅ by simp [readIds], Set.empty_union, Set.singleton_union]
  · rw [Ne, hiff, hlatest]
    intro hsub
    have hsame := hsub (renamedRun false) mem_cons_self
    rw [symbolIds_renamed, Set.singleton_subset_singleton] at hsame
    exact pointId_renamed_ne (congrArg pointId hsame.symm)

end CodeAtlas.Index
