import Mathlib.Data.Set.Card
import CodeAtlas.Change.Impact
import CodeAtlas.Proofs.CallChains

/-!
# The reach of changed symbols

For every node that has the name of a changed symbol, the nodes that call it are collected, directly
or through others.
-/

namespace CodeAtlas.Change

open List

variable {nodes : List Node} {edges : List Edge} {depth : Int} {symbols : List String} {m n : Node}

/-! ## Callers of a node

The walk behind an entry, told by chains of calls. -/

/-- What chains of calls down to a node are made of. Calls mention a node by its full name. -/
def callerGoal (through : Node → Prop) (edges : List Edge) (n : Node) : CallGoal where
  through := through
  wordFor m := m.name
  calls := callEdgesOf edges
  word := n.name

/-- From one node to another leads a chain of calls, of at most as many calls as are allowed. -/
def Reaches (through : Node → Prop) (edges : List Edge) (depth : Int) (m n : Node) : Prop :=
  ∃ k : Nat, (k : Int) ≤ depth ∧ (callerGoal through edges n).Chain k m

def Other (nodes : List Node) (n m : Node) : Prop :=
  Held nodes m ∧ m.id ≠ n.id

theorem front_callerGoal (nodes : List Node) (edges : List Edge) (n : Node) :
    Front (callerGoal (Other nodes n) edges n) nodes 0 [n.name] [n.id] where
  held _ hm := hm.1
  mem_words_iff _ := mem_singleton
  mem_known_iff m hheld := by
    rw [mem_singleton]
    constructor
    · intro hid
      exact .inl fun hother => hother.2 hid
    · rintro (hsame | ⟨j, hj, hdistance⟩)
      · by_contra hid
        exact hsame ⟨hheld, hid⟩
      · exact absurd hdistance.1.pos (by omega)

/-- The callers of a node are the nodes from which a chain of calls leads there, of as many calls as
are allowed. The walk takes a node for the one that the index holds under its identifier, and it
never comes back to the identifier that it started from. -/
theorem mem_callersOfNode_iff :
    m ∈ callersOfNode nodes edges depth n ↔ Reaches (Other nodes n) edges depth m n := by
  refine (mem_callersWithin_iff (front_callerGoal nodes edges n) depth.toNat).trans ?_
  constructor
  · rintro ⟨k, hpos, hk, hdistance⟩
    exact ⟨k, by omega, hdistance.1⟩
  · rintro ⟨k, hk, hchain⟩
    obtain ⟨j, hj, hdistance⟩ := hchain.exists_distance
    exact ⟨j, hdistance.1.pos, by omega, hdistance⟩

/-- Where identifiers are distinct, a chain from another node needs no more calls if it keeps away
from the node that it leads to: it may end where it first comes there. -/
theorem exists_chain_avoiding (hids : (nodes.map (·.id)).Nodup) (hn : n ∈ nodes) {k : Nat}
    (h : (callerGoal (· ∈ nodes) edges n).Chain k m) (hne : m ≠ n) :
    ∃ j, j ≤ k ∧ (callerGoal (Other nodes n) edges n).Chain j m := by
  have hother {m : Node} (hm : m ∈ nodes) (hne : m ≠ n) : Other nodes n m :=
    ⟨held_of_nodup hids hm, fun hid => hne (inj_on_of_nodup_map hids hm hn hid)⟩
  induction h with
  | direct hm hcall => exact ⟨1, Nat.le_refl 1, .direct (hother hm hne) hcall⟩
  | step hm hcall hrest ih =>
    rename_i k x m
    -- a call of `n` itself already ends the chain
    by_cases hx : x = n
    · subst hx
      exact ⟨1, by omega, .direct (hother hm hne) hcall⟩
    · obtain ⟨j, hj, hchain⟩ := ih hx
      exact ⟨j + 1, by omega, .step (hother hm hne) hcall hchain⟩

theorem chain_mono {through through' : Node → Prop} (hle : ∀ m, through m → through' m) {k : Nat}
    (h : (callerGoal through edges n).Chain k m) : (callerGoal through' edges n).Chain k m := by
  induction h with
  | direct hm hcall => exact .direct (hle _ hm) hcall
  | step hm hcall _ ih => exact .step (hle _ hm) hcall ih

theorem reaches_other_iff (hids : (nodes.map (·.id)).Nodup) (hn : n ∈ nodes) :
    Reaches (Other nodes n) edges depth m n ↔ m ≠ n ∧ Reaches (· ∈ nodes) edges depth m n := by
  constructor
  · rintro ⟨k, hk, hchain⟩
    refine ⟨fun heq => ?_, k, hk, chain_mono (fun m hm => hm.1.mem) hchain⟩
    exact hchain.through.2 (congrArg Node.id heq)
  · rintro ⟨hne, k, hk, hchain⟩
    obtain ⟨j, hj, hchain⟩ := exists_chain_avoiding hids hn hchain hne
    exact ⟨j, by omega, hchain⟩

/-! ## Entries

Nodes are looked at one after the other, and `Covers` is what this keeps. -/

def Impact.id? : Impact → Option String
  | .indexed n _ => some n.id
  | .unindexed _ => none

/-- What has been collected after the nodes `asked` were looked at: an entry for the first node of
each identifier. -/
structure Covers (nodes : List Node) (edges : List Edge) (depth : Int) (asked : List Node)
    (r : ImpactReading) :
    Prop where
  mem_seen_iff : ∀ id, id ∈ r.seen ↔ ∃ m ∈ asked, m.id = id
  mem_impacts_iff : ∀ n callers, .indexed n callers ∈ r.impacts ↔
    asked.find? (·.id == n.id) = some n ∧ callers = callersOfNode nodes edges depth n
  ids : r.impacts.filterMap Impact.id? = r.seen
  nodup : r.seen.Nodup

variable {asked : List Node} {r : ImpactReading}

theorem find?_concat_of_mem (hm : ∃ x ∈ asked, x.id = m.id) (id : String) :
    (asked ++ [m]).find? (·.id == id) = asked.find? (·.id == id) := by
  rw [find?_append]
  cases hfind : asked.find? (·.id == id) with
  | some x => rfl
  | none =>
    obtain ⟨x, hx, hid⟩ := hm
    have hne : m.id ≠ id := by simpa [hid] using find?_eq_none.1 hfind x hx
    simp [hne]

theorem find?_concat_eq_some_iff (hm : ∀ x ∈ asked, x.id ≠ m.id) :
    (asked ++ [m]).find? (·.id == n.id) = some n ↔ asked.find? (·.id == n.id) = some n ∨ n = m := by
  rw [find?_append]
  cases hfind : asked.find? (·.id == n.id) with
  | some x =>
    have hid : x.id = n.id := by simpa using find?_some hfind
    refine ⟨.inl, fun h => h.resolve_right ?_⟩
    rintro rfl
    exact hm x (mem_of_find?_eq_some hfind) hid
  | none =>
    by_cases hid : m.id = n.id
    · simp [hid, eq_comm]
    · have hne : n ≠ m := fun h => hid (congrArg Node.id h.symm)
      simp [hid, hne]

theorem Covers.addNode (h : Covers nodes edges depth asked r) (m : Node) :
    Covers nodes edges depth (asked ++ [m]) (r.addNode nodes edges depth m) := by
  unfold ImpactReading.addNode
  split
  · next hseen =>
    -- an identifier that was seen: neither the entries nor the first nodes change
    have hold : ∃ x ∈ asked, x.id = m.id := (h.mem_seen_iff m.id).1 (contains_iff_mem.1 hseen)
    exact { h with
      mem_seen_iff := fun id => by
        rw [h.mem_seen_iff]
        constructor
        · rintro ⟨x, hx, hid⟩
          exact ⟨x, mem_append_left _ hx, hid⟩
        · rintro ⟨x, hx, rfl⟩
          rcases mem_append.1 hx with hx | hx
          · exact ⟨x, hx, rfl⟩
          · rwa [mem_singleton.1 hx]
      mem_impacts_iff := fun n callers => by rw [h.mem_impacts_iff, find?_concat_of_mem hold] }
  · next hseen =>
    -- the first node of its identifier: its entry is put behind the others
    have hnew : m.id ∉ r.seen := fun hmem => hseen (contains_iff_mem.2 hmem)
    have hnone : ∀ x ∈ asked, x.id ≠ m.id :=
      fun x hx hid => hnew ((h.mem_seen_iff m.id).2 ⟨x, hx, hid⟩)
    exact {
      mem_seen_iff := fun id => by
        simp only [mem_append, mem_singleton, h.mem_seen_iff, or_and_right, exists_or,
          exists_eq_left]
        rw [eq_comm (a := id)]
      mem_impacts_iff := fun n callers => by
        rw [mem_append, h.mem_impacts_iff, find?_concat_eq_some_iff hnone, or_and_right,
          mem_singleton, Impact.indexed.injEq]
        refine or_congr_right (and_congr_right fun hn => ?_)
        rw [hn]
      ids := by
        rw [filterMap_append, h.ids]
        rfl
      nodup := by
        rw [← concat_eq_append]
        exact h.nodup.concat hnew }

theorem Covers.foldl_addNode (h : Covers nodes edges depth asked r) (more : List Node) :
    Covers nodes edges depth (asked ++ more) (more.foldl (ImpactReading.addNode nodes edges depth)
      r) := by
  induction more generalizing asked r with
  | nil => rwa [append_nil]
  | cons m more ih =>
    rw [← singleton_append, ← append_assoc, singleton_append, foldl_cons]
    exact ih (h.addNode m)

theorem Covers.addSymbol (h : Covers nodes edges depth asked r) (symbol : String) :
    Covers nodes edges depth (asked ++ nodesNamed nodes symbol)
      (r.addSymbol nodes edges depth symbol) := by
  unfold ImpactReading.addSymbol
  split
  · next hnone =>
    rw [hnone, append_nil]
    exact { h with
      mem_impacts_iff := fun n callers => by simp [h.mem_impacts_iff]
      ids := by simp [h.ids, Impact.id?] }
  · exact h.foldl_addNode _

theorem Covers.foldl_addSymbol (h : Covers nodes edges depth asked r) (symbols : List String) :
    Covers nodes edges depth (asked ++ symbols.flatMap (nodesNamed nodes))
      (symbols.foldl (ImpactReading.addSymbol nodes edges depth) r) := by
  induction symbols generalizing asked r with
  | nil => rwa [flatMap_nil, append_nil]
  | cons s symbols ih =>
    rw [flatMap_cons, ← append_assoc, foldl_cons]
    exact ih (h.addSymbol s)

theorem covers_foldl (nodes : List Node) (edges : List Edge) (depth : Int) (symbols : List String) :
    Covers nodes edges depth (symbols.flatMap (nodesNamed nodes))
      (symbols.foldl (ImpactReading.addSymbol nodes edges depth) {}) := by
  have hnone : Covers nodes edges depth [] {} := ⟨by simp, by simp, rfl, .nil⟩
  exact hnone.foldl_addSymbol symbols

theorem indexed_mem_impactOf_iff {callers : List Node} :
    .indexed n callers ∈ impactOf nodes edges depth symbols ↔
    (symbols.flatMap (nodesNamed nodes)).find? (·.id == n.id) = some n ∧
      callers = callersOfNode nodes edges depth n := by
  rw [impactOf, mem_mergeSort]
  exact (covers_foldl nodes edges depth symbols).mem_impacts_iff n callers

theorem nodup_ids_impactOf (nodes : List Node) (edges : List Edge) (depth : Int)
    (symbols : List String) :
    ((impactOf nodes edges depth symbols).filterMap Impact.id?).Nodup := by
  have hcovers := covers_foldl nodes edges depth symbols
  rw [impactOf, ((mergeSort_perm _ _).filterMap _).nodup_iff, hcovers.ids]
  exact hcovers.nodup

theorem pairwise_impactOf (nodes : List Node) (edges : List Edge) (depth : Int)
    (symbols : List String) :
    (impactOf nodes edges depth symbols).Pairwise fun a b => b.callerCount ≤ a.callerCount := by
  refine (pairwise_mergeSort ?_ ?_ _).imp fun h => of_decide_eq_true h
  · intro a b c hab hbc
    simp only [decide_eq_true_eq] at hab hbc ⊢
    omega
  · intro a b
    simp only [Bool.or_eq_true, decide_eq_true_eq]
    omega

theorem mem_asked_iff : m ∈ symbols.flatMap (nodesNamed nodes) ↔
    m ∈ nodes ∧ ∃ s ∈ symbols, Text.lower m.name = Text.lower s := by
  simp only [mem_flatMap, nodesNamed, mem_filter, beq_iff_eq]
  constructor
  · rintro ⟨s, hs, hm, hname⟩
    exact ⟨hm, s, hs, hname⟩
  · rintro ⟨hm, s, hs, hname⟩
    exact ⟨s, hs, hm, hname⟩

theorem exists_indexed_iff {id : String} :
    (∃ m callers, .indexed m callers ∈ impactOf nodes edges depth symbols ∧ m.id = id) ↔
      ∃ m ∈ nodes, m.id = id ∧ ∃ s ∈ symbols, Text.lower m.name = Text.lower s := by
  constructor
  · rintro ⟨m, callers, hentry, rfl⟩
    obtain ⟨hm, hname⟩ :=
      mem_asked_iff.1 (mem_of_find?_eq_some (indexed_mem_impactOf_iff.1 hentry).1)
    exact ⟨m, hm, rfl, hname⟩
  · rintro ⟨m, hm, rfl, hname⟩
    have hsome : ((symbols.flatMap (nodesNamed nodes)).find? (·.id == m.id)).isSome :=
      find?_isSome.2 ⟨m, mem_asked_iff.2 ⟨hm, hname⟩, beq_self_eq_true m.id⟩
    obtain ⟨x, hx⟩ := Option.isSome_iff_exists.1 hsome
    have hid : x.id = m.id := by simpa using find?_some hx
    exact ⟨x, _, indexed_mem_impactOf_iff.2 ⟨hid ▸ hx, rfl⟩, hid⟩

/-- **The callers of changed symbols.** Every node with the name of a changed symbol has an entry
under its identifier, and no identifier has two. An entry lists the nodes that the index holds, each
once, from which a chain of between one and `depth` calls leads to the node, through nodes with
other identifiers than its own. Where identifiers are distinct, these are all nodes but the node
itself from which such a chain leads there. The entries with most callers come first, and a greater
depth only adds callers to an entry. -/
theorem impactOf_exact (nodes : List Node) (edges : List Edge) (depth : Int)
    (symbols : List String) :
    (∀ n callers, .indexed n callers ∈ impactOf nodes edges depth symbols →
      (callers.map (·.id)).Nodup ∧
      (∀ m, m ∈ callers ↔ Reaches (Other nodes n) edges depth m n) ∧
      (Impact.indexed n callers).callerCount = {m | Reaches (Other nodes n) edges depth m n}.ncard ∧
      ((nodes.map (·.id)).Nodup → ∀ m, m ∈ callers ↔ m ≠ n ∧ Reaches (· ∈ nodes) edges depth m n) ∧
      ∀ further, depth ≤ further → ∃ more, .indexed n more ∈ impactOf nodes edges further symbols ∧
        callers <+: more) ∧
    (impactOf nodes edges depth symbols).Pairwise (fun a b => b.callerCount ≤ a.callerCount) ∧
    ((impactOf nodes edges depth symbols).filterMap Impact.id?).Nodup ∧
    ∀ n ∈ nodes, ∀ s ∈ symbols, Text.lower n.name = Text.lower s →
      ∃ m callers, .indexed m callers ∈ impactOf nodes edges depth symbols ∧ m.id = n.id := by
  refine ⟨fun n callers hentry => ?_, pairwise_impactOf .., nodup_ids_impactOf .., ?_⟩
  · obtain ⟨hfirst, rfl⟩ := indexed_mem_impactOf_iff.1 hentry
    have hnodup : ((callersOfNode nodes edges depth n).map (·.id)).Nodup :=
      (nodup_callersWithin _).1
    refine ⟨hnodup, fun m => mem_callersOfNode_iff, ?_, fun hids m => ?_, fun further hle => ?_⟩
    · have hset : {m | Reaches (Other nodes n) edges depth m n} =
          ↑(callersOfNode nodes edges depth n).toFinset := by
        ext m
        rw [coe_toFinset]
        exact mem_callersOfNode_iff.symm
      rw [hset, Set.ncard_coe_finset, toFinset_card_of_nodup hnodup.of_map]
      rfl
    · have hn := (mem_asked_iff.1 (mem_of_find?_eq_some hfirst)).1
      rw [mem_callersOfNode_iff, reaches_other_iff hids hn]
    · exact ⟨_, indexed_mem_impactOf_iff.2 ⟨hfirst, rfl⟩,
        callersWithin_prefix (Int.toNat_le_toNat hle)⟩
  · intro n hn s hs hname
    exact exists_indexed_iff.2 ⟨n, hn, rfl, s, hs, hname⟩

def summing : Node :=
  { id := "t", kind := .function, name := "total",
    loc := { file := "prices.py", first := 1, last := 2 }
    language := "python" }

def priceMethod (first last : Int) : Node :=
  { id := "p", kind := .method, name := "Cart.price", loc := { file := "cart.py", first, last },
    language := "python" }

def pricedNodes : List Node :=
  [summing, priceMethod 3 4, priceMethod 6 7]

def pricedCalls : List Edge :=
  [{ source := "p", target := "t0", relation := .calls, context := "total(self)" }]

/-- Of two nodes with one identifier, only the last is listed, though a call leads from both to the
function. -/
theorem impactOf_shared_id :
    ∃ n callers, .indexed n callers ∈ impactOf pricedNodes pricedCalls 1 ["total"] ∧
    ¬ ∀ m ∈ pricedNodes, m ∈ callers ↔ m ≠ n ∧ Reaches (· ∈ pricedNodes) pricedCalls 1 m n := by
  have hcallers : callersOfNode pricedNodes pricedCalls 1 summing = [priceMethod 6 7] := by
    decide +kernel
  have hfirst :
      (["total"].flatMap (nodesNamed pricedNodes)).find? (·.id == summing.id) = some summing := by
    decide +kernel
  refine ⟨summing, [priceMethod 6 7], indexed_mem_impactOf_iff.2 ⟨hfirst, hcallers.symm⟩,
    fun hexact => ?_⟩
  have hword : Text.containsWord summing.name "total(self)" = true := by decide +kernel
  have hmem : priceMethod 3 4 ∈ pricedNodes := by decide +kernel
  have hreaches : Reaches (· ∈ pricedNodes) pricedCalls 1 (priceMethod 3 4) summing :=
    ⟨1, Int.le_refl 1, .direct hmem ⟨_, mem_cons_self, rfl, hword⟩⟩
  have hlisted := (hexact _ hmem).2 ⟨by decide +kernel, hreaches⟩
  exact absurd hlisted (by decide +kernel)

end CodeAtlas.Change
