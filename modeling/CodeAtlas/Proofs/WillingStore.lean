import CodeAtlas.Index.Build
import CodeAtlas.Proofs.Upserts

/-!
# Vector stores that refuse nothing

On a store that refuses no call, every operation goes through. What it leaves in a collection is
then a plain function of what was there: making collections changes none (`run_ensureAll`), and
points are put in one after the other.
-/

namespace CodeAtlas.Vector

def Store.Willing (s : Store) : Prop :=
  ∀ c n, s.fails c n = false

/-- Ranking loses no point and adds none. Nothing is said about its order. -/
def Store.RanksAll (s : Store) : Prop :=
  ∀ asked points, ((s.rank asked points).map (·.point)).Perm points

variable {s : Store} {name : String}

theorem Store.ranksAll_unranked : Store.unranked.RanksAll := by
  intro asked points
  simp [Store.unranked, List.map_map, Function.comp_def]

theorem Store.mem_points {p : Point} : p ∈ s.points name ↔ p ∈ s.collection name :=
  (List.mergeSort_perm _ _).mem_iff

namespace Store.Willing

theorem run_call (hs : s.Willing) (k : Call) :
    (call k).run.run s = (.ok (), { s with made := s.made ++ [k] }) := by
  rw [call, run_bind_ok (run_modify _ s), run_bind_ok (run_get _)]
  dsimp only
  rw [hs]
  rfl

theorem run_ensure (hs : s.Willing) (name : String) :
    ∃ s', (ensure name).run.run s = (.ok (), s') ∧ s'.Willing ∧ s'.rank = s.rank ∧
      s'.collection = s.collection := by
  rw [ensure, run_bind_ok (run_get s)]
  split
  · refine ⟨Store.change { s with made := s.made ++ [.create] } name id, ?_, hs, rfl,
      funext fun other => ?_⟩
    · rw [run_bind_ok (hs.run_call .create), run_modify]
    rw [Store.collection_change]
    split
    · next hother => rw [hother]; rfl
    · rfl
  · exact ⟨s, rfl, hs, rfl, rfl⟩

theorem run_ensureAll (hs : s.Willing) (c : Catalog) :
    ∃ s', c.ensureAll.run.run s = (.ok (), s') ∧ s'.Willing ∧ s'.rank = s.rank ∧
      s'.collection = s.collection := by
  have hall (ks : List Collection) :
      ∃ s', (ks.forM fun k => ensure (c.name k)).run.run s = (.ok (), s') ∧
      s'.Willing ∧ s'.rank = s.rank ∧ s'.collection = s.collection := by
    induction ks generalizing s with
    | nil => exact ⟨s, rfl, hs, rfl, rfl⟩
    | cons k ks ih =>
      obtain ⟨s₁, hrun₁, hs₁, hrank₁, hsame₁⟩ := hs.run_ensure (c.name k)
      obtain ⟨s₂, hrun₂, hs₂, hrank₂, hsame₂⟩ := ih hs₁
      exact ⟨s₂, (run_bind_ok hrun₁).trans hrun₂, hs₂, hrank₂.trans hrank₁, hsame₂.trans hsame₁⟩
  exact hall Collection.all

theorem run_scroll (hs : s.Willing) (name : String) (conditions : List Condition) (limit : Int) :
    (scroll name conditions limit).run.run s =
      (.ok (leading limit (meeting conditions (s.points name))),
        { s with made := s.made ++ [.scroll] }) := by
  rw [scroll, run_bind_ok (hs.run_call .scroll), run_bind_ok (run_get _)]
  rfl

theorem run_query (hs : s.Willing) (name : String) (asked : List Float)
    (conditions : List Condition) (limit : Int) :
    (query name asked conditions limit).run.run s =
      (.ok (leading limit (s.rank asked (meeting conditions (s.points name)))),
        { s with made := s.made ++ [.query] }) := by
  rw [query, run_bind_ok (hs.run_call .query), run_bind_ok (run_get _)]
  rfl

/-- Keeping symbols puts one point for each symbol that is no comment. -/
theorem run_keepSymbols (hs : s.Willing) (c : Catalog) (nodes : List Node) :
    ∃ s', (c.keepSymbols nodes).run.run s = (.ok (nodes.countP fun n => !n.isComment), s') ∧
      s'.Willing ∧ s'.rank = s.rank ∧ s'.collection (c.name .symbols) =
        (pointsFor s.vectorOf nodes).foldl Store.putPoint (s.collection (c.name .symbols)) := by
  have hnone :
      ∀ k < (pieces batchSize (pointsFor s.vectorOf nodes)).length, ¬s.Refuses (k + 1) := by
    intro k _
    simp [Store.Refuses, hs .upsert]
  obtain ⟨s', hrun, hfails, hrank, hgained⟩ := run_upserts_accepted (c.name .symbols) hnone
  rw [flatten_pieces (by decide)] at hgained
  refine ⟨s', ?_, fun k n => by rw [hfails, hs], hrank, hgained.put⟩
  rw [Catalog.keepSymbols, run_bind_ok (run_get s), run_keepBatches (by decide) fun _ => rfl,
    run_bind_ok hrun]
  rfl

end Store.Willing

end CodeAtlas.Vector

namespace CodeAtlas

open CodeAtlas.Vector (Store StoreM Catalog)

variable {α : Type} {op : StoreM α} {a : α} {s s' : Store}

theorem Services.run_onVectors {services : Services} (hs : services.vectors = some s)
    (hop : op.run.run s = (.ok a, s')) :
    (Services.onVectors op).run.run services = (.ok a, { services with vectors := some s' }) := by
  rw [Services.onVectors, run_bind_ok (run_get services), hs]
  dsimp only
  rw [hop]
  rfl

theorem Host.run_onVectors {h : Host} (hs : h.vectors = some s) (hop : op.run.run s = (.ok a, s')) :
    (Host.onVectors op).run.run h = (.ok a, { h with vectors := some s' }) := by
  have hvectors : (Services.mk h.shell h.vectors).vectors = some s := hs
  have hservices := Services.run_onVectors hvectors hop
  rw [Host.onVectors, Host.onServices, run_bind_ok (run_get h), hservices]
  rfl

def Index.catalogOf (config : Config) (catalog? : Option Catalog) : Catalog :=
  catalog?.getD (.ofSettings config.store config.project.name)

theorem Index.run_catalogFor {h : Host} (hs : h.vectors = some s) (config : Config)
    (catalog? : Option Catalog) :
    (catalogFor config catalog? true).run.run h = (.ok (some (catalogOf config catalog?)), h) := by
  have hopen :
      (Host.catalogOr catalog? config).run.run h = (.ok (catalogOf config catalog?), h) := by
    cases catalog? with
    | some c => rfl
    | none =>
      rw [Host.catalogOr, Host.openCatalog, run_bind_ok (run_get h), hs]
      rfl
  rw [catalogFor, if_pos rfl, map_eq_pure_bind, run_bind_ok hopen]
  rfl

theorem Index.run_keepSymbols {h : Host} (hs : h.vectors = some s) (hwilling : s.Willing)
    (c : Catalog) (nodes : List Node) :
    ∃ (s₁ s' : Store), (keepSymbols (some c) nodes).run.run h =
        (.ok (nodes.countP fun n => !n.isComment), { h with vectors := some s' }) ∧ s'.Willing ∧
      s'.rank = s.rank ∧ s'.collection (c.name .symbols) =
        (Vector.pointsFor s₁.vectorOf nodes).foldl Store.putPoint
          (s.collection (c.name .symbols)) := by
  obtain ⟨s₁, hensure, hwilling₁, hrank₁, hsame⟩ := hwilling.run_ensureAll c
  obtain ⟨s', hkeep, hwilling', hrank', hput⟩ := hwilling₁.run_keepSymbols c nodes
  refine ⟨s₁, s', ?_, hwilling', hrank'.trans hrank₁, by rw [hput, hsame]⟩
  exact Host.run_onVectors hs (by rw [run_bind_ok hensure, hkeep])

end CodeAtlas
