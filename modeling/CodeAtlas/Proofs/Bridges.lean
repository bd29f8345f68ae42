import Mathlib.Data.List.Forall2
import Mathlib.Data.List.ProdSigma
import Mathlib.Tactic.Tauto
import CodeAtlas.Analysis.Bridge
import CodeAtlas.Proofs.OrderedMap

/-!
# Which endpoints are bridged

Endpoints are kept by their normal paths, so of several with one path the last one takes the place
of the others.
-/

namespace CodeAtlas.Bridge

open List

/-- Two segments are the same, or one of them is a wildcard. -/
def SegmentsMatch (a b : String) : Prop :=
  a = b ∨ a = "*" ∨ b = "*"

theorem isSome_matchSegments_iff (as bs : List String) :
    (matchSegments as bs).isSome ↔ List.Forall₂ SegmentsMatch as bs := by
  fun_induction matchSegments as bs with
  | case1 => simp
  | case2 a as b bs heq ih =>
    rw [ih, forall₂_cons]
    exact (and_iff_right (.inl (eq_of_beq heq))).symm
  | case3 a as b bs hne hwildcard ih =>
    rw [Option.isSome_map, ih, forall₂_cons]
    exact (and_iff_right (.inr (by simpa using hwildcard))).symm
  | case4 a as b bs hne hwildcard =>
    rw [forall₂_cons, SegmentsMatch]
    simp_all
  | case5 as bs hnil hcons =>
    -- the lists differ in length
    refine iff_of_false (by simp) fun h => ?_
    cases h with
    | nil => exact hnil rfl rfl
    | cons hfirst hrest => exact hcons _ _ _ _ rfl rfl

theorem matchPaths_pos_iff (a b : String) :
    matchPaths a b > 0.0 ↔ List.Forall₂ SegmentsMatch (Text.splitChar '/' a)
      (Text.splitChar '/' b) := by
  have hpositive : (1.0 : Float) > 0.0 ∧ wildcardConfidence > 0.0 ∧ ¬ (0.0 : Float) > 0.0 := by
    decide +kernel
  rw [← isSome_matchSegments_iff, matchPaths]
  split
  · next heq =>
    rw [eq_of_beq heq, isSome_matchSegments_iff]
    exact iff_of_true hpositive.1 (forall₂_same.2 fun _ _ => .inl rfl)
  · split
    · next h => simp [h, hpositive]
    · next h => simp [h, hpositive]
    · next h => simp [h, hpositive]

def pathConfidence (c p : Node) : Float :=
  matchPaths (normalizePath c.name) (normalizePath p.name)

def Matches (c p : Node) : Prop :=
  c.language ≠ p.language ∧ pathConfidence c p > 0.0

instance (c p : Node) : Decidable (Matches c p) :=
  inferInstanceAs (Decidable (_ ∧ _))

def IsProvider (edges : List Edge) (n : Node) : Prop :=
  n.kind = .endpoint ∧ ∃ e ∈ edges, e.relation = .defines ∧ e.target = n.id

def IsConsumer (edges : List Edge) (n : Node) : Prop :=
  n.kind = .endpoint ∧ (∃ e ∈ edges, e.relation = .networksTo ∧ e.isBridge = true ∧
    e.target = n.id) ∧ ∀ e ∈ edges, e.relation = .defines → e.target ≠ n.id

/-- A node has a role, and no later node with this role has its path. -/
def LastWith (role : Node → Prop) (nodes : List Node) (n : Node) : Prop :=
  role n ∧ ∃ front back, nodes = front ++ n :: back ∧ ∀ m ∈ back, role m →
    normalizePath m.name ≠ normalizePath n.name

/-- A consumer and a provider that match, each the last one with its path. -/
structure Bridged (nodes : List Node) (edges : List Edge) (c p : Node) : Prop where
  consumer : LastWith (IsConsumer edges) nodes c
  provider : LastWith (IsProvider edges) nodes p
  matching : Matches c p

/-- The bridges lead from consumers to providers of other languages, from one to the other exactly
if their paths match, with the confidence of the match, and at most once. -/
structure Faithful (nodes : List Node) (edges bridges : List Edge) : Prop where
  complete : ∀ c ∈ nodes, ∀ p ∈ nodes, IsConsumer edges c → IsProvider edges p →
    c.language ≠ p.language →
    ((∃ e ∈ bridges, e.source = c.id ∧ e.target = p.id) ↔ pathConfidence c p > 0.0)
  confidence : ∀ c ∈ nodes, ∀ p ∈ nodes, IsConsumer edges c → IsProvider edges p →
    c.language ≠ p.language →
    ∀ e ∈ bridges, e.source = c.id → e.target = p.id → e.confidence = pathConfidence c p
  once : (bridges.map fun e => (e.source, e.target)).Nodup
  sound : ∀ e ∈ bridges, ∃ c ∈ nodes, ∃ p ∈ nodes, IsConsumer edges c ∧ IsProvider edges p ∧
    Matches c p ∧ e = bridgeEdge c p (pathConfidence c p)

/-- No endpoint loses a bridge, or its meaning, to another one with the same path or the same
identifier. -/
structure Unrivalled (nodes : List Node) (edges : List Edge) : Prop where
  kept : ∀ c ∈ nodes, ∀ p ∈ nodes, IsConsumer edges c → IsProvider edges p → Matches c p →
    ∃ c' p', Bridged nodes edges c' p' ∧ c'.id = c.id ∧ p'.id = p.id
  agreeing : ∀ c ∈ nodes, ∀ p ∈ nodes, IsConsumer edges c → IsProvider edges p →
    c.language ≠ p.language →
    ∀ c' p', Bridged nodes edges c' p' → c'.id = c.id → p'.id = p.id →
      pathConfidence c' p' = pathConfidence c p
  single : ∀ c p c' p', Bridged nodes edges c p → Bridged nodes edges c' p' → c.id = c'.id →
    p.id = p'.id → c = c' ∧ p = p'

/-! ## The last endpoint with a path

Endpoints are put in a map by their paths, where a later one takes the place of an earlier one. -/

/-- An element of a list that only elements with a property follow, before and after others are left
out. -/
theorem filter_eq_append_cons_iff {q : Node → Bool} {P : Node → Prop} {nodes : List Node}
    {n : Node} :
    (∃ front back, nodes.filter q = front ++ n :: back ∧ ∀ m ∈ back, P m) ↔
      q n ∧ ∃ front back, nodes = front ++ n :: back ∧ ∀ m ∈ back, q m → P m := by
  constructor
  · rintro ⟨front, back, heq, hback⟩
    obtain ⟨before, others, rfl, -, hothers⟩ := filter_eq_append_iff.1 heq
    obtain ⟨between, after, rfl, -, hn, hafter⟩ := filter_eq_cons_iff.1 hothers
    refine ⟨hn, before ++ between, after, by simp, fun m hm hq => hback m ?_⟩
    rw [← hafter]
    exact mem_filter.2 ⟨hm, hq⟩
  · rintro ⟨hn, front, back, rfl, hback⟩
    refine ⟨front.filter q, back.filter q, by rw [filter_append,
      filter_cons_of_pos hn], fun m hm => ?_⟩
    exact hback m (mem_filter.1 hm).1 (mem_filter.1 hm).2

theorem mem_entries_byPath_iff {endpoints : List Node} {path : String} {n : Node} :
    (path, n) ∈ (byPath endpoints).entries ↔ path = normalizePath n.name ∧
      ∃ front back, endpoints = front ++ n :: back ∧ ∀ m ∈ back,
        normalizePath m.name ≠ normalizePath n.name := by
  rw [byPath, OrderedMap.mem_entries_ofList_iff]
  constructor
  · rintro ⟨front, back, heq, hback⟩
    obtain ⟨before, others, rfl, -, hothers⟩ := map_eq_append_iff.1 heq
    obtain ⟨n', after, rfl, hn, rfl⟩ := map_eq_cons_iff.1 hothers
    obtain ⟨rfl, rfl⟩ := Prod.mk.inj hn
    exact ⟨rfl, before, after, rfl, fun m hm => hback _ (mem_map_of_mem hm)⟩
  · rintro ⟨rfl, front, back, rfl, hback⟩
    refine ⟨_, _, map_append.trans (congrArg _ map_cons), fun e he => ?_⟩
    obtain ⟨m, hm, rfl⟩ := mem_map.1 he
    exact hback m hm

theorem entries_byPath (endpoints : List Node) :
    (byPath endpoints).entries = (byPath endpoints).values.map fun n =>
      (normalizePath n.name, n) := by
  rw [OrderedMap.values, map_map]
  refine (map_id _).symm.trans (map_congr_left fun e he => ?_)
  exact Prod.ext (mem_entries_byPath_iff.1 he).1 rfl

theorem nodup_paths (endpoints : List Node) :
    ((byPath endpoints).values.map fun n => normalizePath n.name).Nodup := by
  have hkeys := OrderedMap.nodup_keys_ofList (endpoints.map fun n => (normalizePath n.name, n))
  rw [← byPath, OrderedMap.keys, entries_byPath, map_map] at hkeys
  exact hkeys

theorem mem_values_byPath_iff {q : Node → Bool} {role : Node → Prop} (hrole : ∀ n, q n ↔ role n)
    {nodes : List Node} {n : Node} :
    n ∈ (byPath (nodes.filter q)).values ↔ LastWith role nodes n := by
  have hentry : n ∈ (byPath (nodes.filter q)).values ↔
      (normalizePath n.name, n) ∈ (byPath (nodes.filter q)).entries := by
    constructor
    · intro h
      rw [entries_byPath]
      exact mem_map_of_mem h
    · exact mem_map_of_mem
  rw [hentry, mem_entries_byPath_iff, LastWith]
  simp only [true_and, filter_eq_append_cons_iff, hrole]

def lastProviders (nodes : List Node) (edges : List Edge) : List Node :=
  (byPath ((nodes.filter fun n => n.kind == .endpoint).filter fun n => (providerIds edges).contains
    n.id)).values

def lastConsumers (nodes : List Node) (edges : List Edge) : List Node :=
  (byPath ((nodes.filter fun n => n.kind == .endpoint).filter fun n =>
    !(providerIds edges).contains n.id && (consumerIds edges).contains n.id)).values

section Resolving

variable {nodes : List Node} {edges : List Edge} {c p n : Node}

theorem mem_lastProviders_iff :
    n ∈ lastProviders nodes edges ↔ LastWith (IsProvider edges) nodes n := by
  rw [lastProviders, filter_filter]
  refine mem_values_byPath_iff fun n => ?_
  simp [IsProvider, providerIds, and_assoc, and_comm]

theorem mem_lastConsumers_iff :
    n ∈ lastConsumers nodes edges ↔ LastWith (IsConsumer edges) nodes n := by
  rw [lastConsumers, filter_filter]
  refine mem_values_byPath_iff fun n => ?_
  have hconsumed : (consumerIds edges).contains n.id ↔
      ∃ e ∈ edges, e.relation = .networksTo ∧ e.isBridge ∧ e.target = n.id := by
    simp [consumerIds, and_assoc]
  have hnot : (!(providerIds edges).contains n.id) ↔ ∀ e ∈ edges, e.relation = .defines →
      e.target ≠ n.id := by
    simp [providerIds]
  rw [Bool.and_eq_true, Bool.and_eq_true, hconsumed, hnot, beq_iff_eq, IsConsumer]
  tauto

/-! ## The bridges

The loop over pairs is a list of the pairs that match. -/

def bridgedPairs (nodes : List Node) (edges : List Edge) : List (Node × Node) :=
  (lastConsumers nodes edges ×ˢ lastProviders nodes edges).filter fun x => Matches x.1 x.2

theorem mem_bridgedPairs_iff : (c, p) ∈ bridgedPairs nodes edges ↔ Bridged nodes edges c p := by
  rw [bridgedPairs, mem_filter, mem_product, mem_lastConsumers_iff, mem_lastProviders_iff]
  constructor
  · rintro ⟨⟨hc, hp⟩, hmatch⟩
    exact ⟨hc, hp, of_decide_eq_true hmatch⟩
  · intro h
    exact ⟨⟨h.consumer, h.provider⟩, decide_eq_true h.matching⟩

theorem nodup_bridgedPairs (nodes : List Node) (edges : List Edge) :
    (bridgedPairs nodes edges).Nodup :=
  ((nodup_paths _).of_map.product (nodup_paths _).of_map).filter _

variable (nodes edges) in
theorem resolve_eq :
    resolve nodes edges = (bridgedPairs nodes edges).map fun x => bridgeEdge x.1 x.2
      (pathConfidence x.1 x.2) := by
  have hinner (c : Node) (ps : List Node) :
      (ps.filterMap fun p => if c.language != p.language && pathConfidence c p > 0.0 then
          some (bridgeEdge c p (pathConfidence c p)) else none) =
        ((ps.map (Prod.mk c)).filter fun x => Matches x.1 x.2).map fun x =>
          bridgeEdge x.1 x.2 (pathConfidence x.1 x.2) := by
    induction ps with
    | nil => rfl
    | cons p ps ih =>
      have htest : (c.language != p.language && decide (pathConfidence c p > 0.0)) =
          decide (Matches c p) := by
        rw [Bool.eq_iff_iff]
        simp [Matches]
      rw [filterMap_cons, ih, map_cons, filter_cons, htest]
      by_cases hmatch : Matches c p
      · rw [if_pos (decide_eq_true hmatch), if_pos (decide_eq_true hmatch)]
        rfl
      · rw [if_neg (by simpa using hmatch), if_neg (by simpa using hmatch)]
  -- the outer loop runs over the consumers, the inner one over the providers
  have hproduct : lastConsumers nodes edges ×ˢ lastProviders nodes edges =
      (lastConsumers nodes edges).flatMap fun c => (lastProviders nodes edges).map (Prod.mk c) :=
        rfl
  unfold resolve
  rw [bridgedPairs, hproduct]
  dsimp only
  rw [entries_byPath, entries_byPath, flatMap_map, filter_flatMap, map_flatMap]
  refine congrArg₂ _ (funext fun c => ?_) rfl
  rw [filterMap_map]
  exact hinner c (lastProviders nodes edges)

/-- An edge is resolved exactly for each bridged pair. -/
theorem mem_resolve_iff {e : Edge} :
    e ∈ resolve nodes edges ↔ ∃ c p, Bridged nodes edges c p ∧ e = bridgeEdge c p
      (pathConfidence c p) := by
  rw [resolve_eq, mem_map]
  constructor
  · rintro ⟨x, hx, rfl⟩
    exact ⟨x.1, x.2, mem_bridgedPairs_iff.1 hx, rfl⟩
  · rintro ⟨c, p, h, rfl⟩
    exact ⟨(c, p), mem_bridgedPairs_iff.2 h, rfl⟩

theorem LastWith.mem {role : Node → Prop} (h : LastWith role nodes n) : n ∈ nodes := by
  obtain ⟨-, front, back, rfl, -⟩ := h
  simp

theorem nodup_ends_iff : ((resolve nodes edges).map fun e => (e.source, e.target)).Nodup ↔
    ∀ c p c' p', Bridged nodes edges c p → Bridged nodes edges c' p' → c.id = c'.id → p.id = p'.id →
      c = c' ∧ p = p' := by
  rw [resolve_eq, map_map, nodup_map_iff_inj_on (nodup_bridgedPairs nodes edges)]
  constructor
  · intro h c p c' p' hbridged hbridged' hc hp
    have hpair :=
      h (c, p) (mem_bridgedPairs_iff.2 hbridged) (c', p') (mem_bridgedPairs_iff.2 hbridged')
    exact Prod.mk.inj (hpair (Prod.ext hc hp))
  · rintro h ⟨c, p⟩ hx ⟨c', p'⟩ hy heq
    obtain ⟨hc, hp⟩ := Prod.mk.inj heq
    obtain ⟨rfl, rfl⟩ := h c p c' p' (mem_bridgedPairs_iff.1 hx) (mem_bridgedPairs_iff.1 hy) hc hp
    rfl

variable (nodes edges) in
theorem resolve_sound :
    ∀ e ∈ resolve nodes edges, ∃ c ∈ nodes, ∃ p ∈ nodes, IsConsumer edges c ∧ IsProvider edges p ∧
    Matches c p ∧ e = bridgeEdge c p (pathConfidence c p) := by
  intro e he
  obtain ⟨c, p, hbridged, rfl⟩ := mem_resolve_iff.1 he
  exact ⟨c, hbridged.consumer.mem, p, hbridged.provider.mem, hbridged.consumer.1,
    hbridged.provider.1, hbridged.matching, rfl⟩

theorem faithful_resolve_iff :
    Faithful nodes edges (resolve nodes edges) ↔ Unrivalled nodes edges := by
  constructor
  · intro h
    refine ⟨fun c hc p hp hconsumer hprovider hmatch => ?_, ?_, nodup_ends_iff.1 h.once⟩
    · obtain ⟨e, he, hsource, htarget⟩ :=
        (h.complete c hc p hp hconsumer hprovider hmatch.1).2 hmatch.2
      obtain ⟨c', p', hbridged, rfl⟩ := mem_resolve_iff.1 he
      exact ⟨c', p', hbridged, hsource, htarget⟩
    · intro c hc p hp hconsumer hprovider hlanguage c' p' hbridged hcid hpid
      exact h.confidence c hc p hp hconsumer hprovider hlanguage
        _ (mem_resolve_iff.2 ⟨c', p', hbridged, rfl⟩) hcid hpid
  · intro h
    refine ⟨?_, ?_, nodup_ends_iff.2 h.single, resolve_sound nodes edges⟩
    · intro c hc p hp hconsumer hprovider hlanguage
      -- a bridge between these identifiers may be that of another pair, which has the same
      -- confidence
      constructor
      · rintro ⟨e, he, hsource, htarget⟩
        obtain ⟨c', p', hbridged, rfl⟩ := mem_resolve_iff.1 he
        rw [← h.agreeing c hc p hp hconsumer hprovider hlanguage c' p' hbridged hsource htarget]
        exact hbridged.matching.2
      · intro hpositive
        obtain ⟨c', p', hbridged, hcid, hpid⟩ :=
          h.kept c hc p hp hconsumer hprovider ⟨hlanguage, hpositive⟩
        exact ⟨_, mem_resolve_iff.2 ⟨c', p', hbridged, rfl⟩, hcid, hpid⟩
    · intro c hc p hp hconsumer hprovider hlanguage e he hsource htarget
      obtain ⟨c', p', hbridged, rfl⟩ := mem_resolve_iff.1 he
      exact h.agreeing c hc p hp hconsumer hprovider hlanguage c' p' hbridged hsource htarget

/-- Endpoints with one identifier have one name. -/
def NamedById (nodes : List Node) : Prop :=
  ∀ m ∈ nodes, ∀ n ∈ nodes, m.kind = .endpoint → n.kind = .endpoint → m.id = n.id → m.name = n.name

theorem Bridged.eq_of_paths {c' p' : Node} (h : Bridged nodes edges c p)
    (h' : Bridged nodes edges c' p') (hc : normalizePath c.name = normalizePath c'.name)
    (hp : normalizePath p.name = normalizePath p'.name) : c = c' ∧ p = p' := by
  constructor
  · exact inj_on_of_nodup_map (nodup_paths _) (mem_lastConsumers_iff.2 h.consumer)
      (mem_lastConsumers_iff.2 h'.consumer) hc
  · exact inj_on_of_nodup_map (nodup_paths _) (mem_lastProviders_iff.2 h.provider)
      (mem_lastProviders_iff.2 h'.provider) hp

/-- If identifiers name the endpoints, only paths can have rivals. -/
theorem unrivalled_iff_of_namedById (hnamed : NamedById nodes) : Unrivalled nodes edges ↔
    ∀ c ∈ nodes, ∀ p ∈ nodes, IsConsumer edges c → IsProvider edges p → Matches c p →
      ∃ c' p', Bridged nodes edges c' p' ∧ c'.id = c.id ∧ p'.id = p.id := by
  refine ⟨Unrivalled.kept, fun hkept => ⟨hkept, ?_, ?_⟩⟩
  · intro c hc p hp hconsumer hprovider _ c' p' hbridged hcid hpid
    rw [pathConfidence, pathConfidence,
      hnamed c' hbridged.consumer.mem c hc hbridged.consumer.1.1 hconsumer.1 hcid,
      hnamed p' hbridged.provider.mem p hp hbridged.provider.1.1 hprovider.1 hpid]
  · intro c p c' p' hbridged hbridged' hcid hpid
    refine hbridged.eq_of_paths hbridged' (congrArg _ ?_) (congrArg _ ?_)
    · exact hnamed c hbridged.consumer.mem c' hbridged'.consumer.mem hbridged.consumer.1.1
        hbridged'.consumer.1.1 hcid
    · exact hnamed p hbridged.provider.mem p' hbridged'.provider.mem hbridged.provider.1.1
        hbridged'.provider.1.1 hpid

end Resolving

/-- **Of the endpoints with one path, only the last one has bridges.** The bridges are those of the
matching pairs in which both endpoints are the last ones with their paths. So each matching pair has
its bridge, with its own confidence and once, exactly if no endpoint is displaced by another one
with its path or mistaken for another one with its identifier; and where identifiers name the
endpoints, exactly if each matching pair shares its identifiers with a pair that is bridged. Paths
match if their segments do, up to wildcards. -/
theorem bridges_faithful_iff (nodes : List Node) (edges : List Edge) :
    (∀ e, e ∈ resolve nodes edges ↔
      ∃ c p, Bridged nodes edges c p ∧ e = bridgeEdge c p (pathConfidence c p)) ∧
    (Faithful nodes edges (resolve nodes edges) ↔ Unrivalled nodes edges) ∧
    (NamedById nodes → (Faithful nodes edges (resolve nodes edges) ↔
      ∀ c ∈ nodes, ∀ p ∈ nodes, IsConsumer edges c → IsProvider edges p → Matches c p →
        ∃ c' p', Bridged nodes edges c' p' ∧ c'.id = c.id ∧ p'.id = p.id)) ∧
    ∀ c p, pathConfidence c p > 0.0 ↔ List.Forall₂ SegmentsMatch
      (Text.splitChar '/' (normalizePath c.name)) (Text.splitChar '/' (normalizePath p.name)) := by
  refine ⟨fun e => mem_resolve_iff, faithful_resolve_iff, fun hnamed => ?_,
    fun c p => matchPaths_pos_iff _ _⟩
  exact faithful_resolve_iff.trans (unrivalled_iff_of_namedById hnamed)

def usersRequest : Node :=
  { id := "request", kind := .endpoint, name := "/api/users", loc := ⟨"page.js", 3, 3⟩,
    language := "javascript" }

def usersOfPhp : Node :=
  { id := "php", kind := .endpoint, name := "/api/users", loc := ⟨"users.php", 5, 9⟩,
    language := "php" }

def usersOfPython : Node :=
  { id := "python", kind := .endpoint, name := "/api/users/", loc := ⟨"users.py", 4, 8⟩,
    language := "python" }

def usersEdges : List Edge :=
  [{ source := "load", target := "request", relation := .networksTo, isBridge := true },
   { source := "list", target := "php", relation := .defines },
   { source := "users", target := "python", relation := .defines }]

theorem bridges_faithful_iff_users :
    NamedById [usersRequest, usersOfPhp, usersOfPython] ∧
      (resolve [usersRequest, usersOfPhp, usersOfPython] usersEdges).map (·.target) = ["python"] ∧
      ¬ Faithful [usersRequest, usersOfPhp, usersOfPython] usersEdges
        (resolve [usersRequest, usersOfPhp, usersOfPython] usersEdges) := by
  have hnamed : NamedById [usersRequest, usersOfPhp, usersOfPython] := by
    unfold NamedById
    decide +kernel
  refine ⟨hnamed, by decide +kernel, fun hfaithful => ?_⟩
  -- the first service is a provider that matches, but the second one has taken its place
  have hlast : (lastProviders [usersRequest, usersOfPhp, usersOfPython] usersEdges).map (·.id) =
      ["python"] := by
    decide +kernel
  have hconsumer : IsConsumer usersEdges usersRequest :=
    ⟨rfl, ⟨_, mem_cons_self, rfl, rfl, rfl⟩, by decide⟩
  have hprovider : IsProvider usersEdges usersOfPhp :=
    ⟨rfl, _, mem_cons_of_mem _ mem_cons_self, rfl, rfl⟩
  obtain ⟨c, p, hbridged, -, hid⟩ := ((bridges_faithful_iff _ usersEdges).2.2.1 hnamed).1 hfaithful
    usersRequest (by simp) usersOfPhp (by simp) hconsumer hprovider (by decide +kernel)
  have hmem := mem_map_of_mem (f := (·.id)) (mem_lastProviders_iff.2 hbridged.provider)
  rw [hlast, hid] at hmem
  exact absurd hmem (by decide)

end CodeAtlas.Bridge
