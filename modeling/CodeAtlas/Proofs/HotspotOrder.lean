import Mathlib.Analysis.SpecialFunctions.Log.Base
import CodeAtlas.Proofs.CallerCounts

/-!
# The order of a ranking of hotspots

The callers of a node are counted by its name, so an entry does not depend on which other nodes are
ranked with it. Entries are sorted stably by a total order, and so the ranking of the nodes that
pass some filters is the ranking of all nodes, restricted to these.
-/

namespace CodeAtlas.Hotspot

open List
open Text (lower)

variable {R : Type}

def entryOf [Mul R] (scale : Int → R) (edges : List Edge)
    (fileChurn : Option (OrderedMap String Int)) (n : Node) :
    Entry R where
  node := n
  callers := (calledBy edges n.name).card
  churn := churnOf fileChurn n
  score := score scale (calledBy edges n.name).card (churnOf fileChurn n)

section Order

variable [LinearOrder R]

theorem Entry.before_iff {a b : Entry R} :
    a.before b ↔ b.score < a.score ∨ a.score = b.score ∧ b.callers ≤ a.callers := by
  unfold Entry.before
  rcases lt_trichotomy b.score a.score with h | h | h
  · simp [h]
  · simp [h]
  · simp [h, h.not_gt, h.ne]

theorem Entry.before_trans (a b c : Entry R) (hab : a.before b) (hbc : b.before c) :
    a.before c := by
  rw [Entry.before_iff] at hab hbc ⊢
  rcases hab with hab | ⟨hab, hcallers⟩
  · rcases hbc with hbc | ⟨hbc, -⟩
    · exact .inl (hbc.trans hab)
    · exact .inl (hbc ▸ hab)
  · rcases hbc with hbc | ⟨hbc, hcallers'⟩
    · exact .inl (hab ▸ hbc)
    · exact .inr ⟨hab.trans hbc, hcallers'.trans hcallers⟩

theorem Entry.before_total (a b : Entry R) : (a.before b || b.before a) := by
  rw [Bool.or_eq_true, Entry.before_iff, Entry.before_iff]
  rcases lt_trichotomy b.score a.score with h | h | h
  · exact .inl (.inl h)
  · rcases Nat.le_total b.callers a.callers with hcallers | hcallers
    · exact .inl (.inr ⟨h.symm, hcallers⟩)
    · exact .inr (.inr ⟨h, hcallers⟩)
  · exact .inr (.inl h)

end Order

/-! ## Rankings

Filters and the sort commute, since the sort is stable and entries do not depend on each other. -/

section Rank

variable [Mul R] [LinearOrder R] {scale : Int → R} {nodes : List Node} {edges : List Edge}
  {fileChurn : Option (OrderedMap String Int)}
  (hnames : ∀ m ∈ nodes, ∀ n ∈ nodes, m.id = n.id → lower m.name = lower n.name)

include hnames

/-- A ranking in terms of entries that stand for themselves. -/
theorem rank_eq (filters : Filters) (top : Nat) : rank scale nodes edges fileChurn filters top =
    (((nodes.filter filters.pass).map (entryOf scale edges fileChurn)).mergeSort Entry.before).take
      top := by
  have hcandidates : ∀ m ∈ nodes.filter filters.pass, ∀ n ∈ nodes.filter filters.pass, m.id = n.id →
      lower m.name = lower n.name :=
    fun m hm n hn => hnames m (mem_of_mem_filter hm) n (mem_of_mem_filter hn)
  -- the callers that are counted among the candidates are those of the name
  have hentries : ((nodes.filter filters.pass).map fun n =>
      let callers := ((callerCounts (nodes.filter filters.pass) edges).get? n.id).getD 0
      let churn := churnOf fileChurn n
      { node := n, callers := callers, churn := churn, score := score scale callers churn :
        Entry R }) =
      (nodes.filter filters.pass).map (entryOf scale edges fileChurn) := by
    refine map_congr_left fun n hn => ?_
    dsimp only
    rw [get?_callerCounts hcandidates hn]
    rfl
  show leading (top : Int) (List.mergeSort _ Entry.before) = _
  rw [hentries, leading, if_pos (Int.natCast_nonneg top), Int.toNat_natCast]

theorem rank_all : rank scale nodes edges fileChurn {} nodes.length =
    (nodes.map (entryOf scale edges fileChurn)).mergeSort Entry.before := by
  have hall : nodes.filter ({} : Filters).pass = nodes := filter_eq_self.2 fun _ _ => rfl
  rw [rank_eq hnames, hall, take_of_length_le (by simp)]

/-- A filtered ranking is the ranking of all nodes, filtered and then cut. -/
theorem rank_filtered (filters : Filters) (top : Nat) :
    rank scale nodes edges fileChurn filters top =
    ((rank scale nodes edges fileChurn {} nodes.length).filter fun x => filters.pass x.node).take
      top := by
  have hpass : (nodes.map (entryOf scale edges fileChurn)).filter (fun x => filters.pass x.node) =
      (nodes.filter filters.pass).map (entryOf scale edges fileChurn) := filter_map
  rw [rank_eq hnames, rank_all hnames, filter_mergeSort Entry.before_trans Entry.before_total,
    hpass]

end Rank

noncomputable def exactScale (n : Int) : ℝ :=
  Real.logb 2 (1 + n)

theorem exactScale_lt {m n : Int} (hm : 0 ≤ m) (hmn : m < n) : exactScale m < exactScale n := by
  have hm' : (0 : ℝ) ≤ m := by exact_mod_cast hm
  have hmn' : (m : ℝ) < n := by exact_mod_cast hmn
  exact Real.logb_lt_logb (by norm_num) (by linarith) (by linarith)

theorem exactScale_nonneg {n : Int} (hn : 0 ≤ n) : 0 ≤ exactScale n := by
  have hn' : (0 : ℝ) ≤ n := by exact_mod_cast hn
  exact Real.logb_nonneg (by norm_num) (by linarith)

noncomputable def ranking (nodes : List Node) (edges : List Edge)
    (fileChurn : Option (OrderedMap String Int)) :
    List (Entry ℝ) :=
  rank exactScale nodes edges fileChurn {} nodes.length

/-- With real logarithms, more callers and no fewer changes make a larger score. -/
theorem exactScore_lt {callers callers' : Nat} {churn churn' : Int} (hcallers : callers < callers')
    (hchurn : churn ≤ churn') :
    score exactScale callers churn < score exactScale callers' churn' := by
  have hfirst : exactScale callers < exactScale callers' := exactScale_lt (by omega) (by omega)
  have hsecond : exactScale (max churn 1) ≤ exactScale (max churn' 1) := by
    rcases (show max churn 1 ≤ max churn' 1 by omega).eq_or_lt with heq | hlt
    · rw [heq]
    · exact (exactScale_lt (by omega) hlt).le
  have hpos : 0 < exactScale (max churn' 1) :=
    (exactScale_nonneg le_rfl).trans_lt (exactScale_lt le_rfl (by omega))
  calc exactScale callers * exactScale (max churn 1)
      ≤ exactScale callers * exactScale (max churn' 1) :=
        mul_le_mul_of_nonneg_left hsecond (exactScale_nonneg (by omega))
    _ < exactScale callers' * exactScale (max churn' 1) := mul_lt_mul_of_pos_right hfirst hpos

theorem lt_of_score_lt [LinearOrder R] {entries : List (Entry R)} {i j : Nat} {x y : Entry R}
    (hsorted : entries.Pairwise fun a b => a.before b) (hx : entries[i]? = some x)
    (hy : entries[j]? = some y) (hlt : y.score < x.score) : i < j := by
  obtain ⟨hi, rfl⟩ := List.getElem?_eq_some_iff.1 hx
  obtain ⟨hj, rfl⟩ := List.getElem?_eq_some_iff.1 hy
  by_contra hle
  rcases (not_lt.1 hle).eq_or_lt with heq | hji
  · subst heq
    exact lt_irrefl _ hlt
  · have hbefore := Entry.before_iff.1 (pairwise_iff_getElem.1 hsorted j i hj hi hji)
    rcases hbefore with hgt | ⟨heq, -⟩
    · exact lt_asymm hlt hgt
    · exact hlt.ne heq

/-- **Filters and dominance.** The hotspots are a ranking with base-two logarithms in floating-point
arithmetic; what follows is said with real ones. Take nodes of which those with one identifier have
one name, case ignored. The ranking of all of them has one entry for each node, with the number of
callers of its name. The ranking of those that pass some filters is what the ranking of all of them
has of these, cut to the length that was asked for. An entry with more callers than another one and
at least as many changes stands before it. -/
theorem rank_commutes_and_dominates (nodes : List Node) (edges : List Edge)
    (fileChurn : Option (OrderedMap String Int))
    (hnames : ∀ m ∈ nodes, ∀ n ∈ nodes, m.id = n.id → lower m.name = lower n.name) :
    hotspots nodes edges fileChurn = rank (fun n => Float.log2 (Float.ofInt (1 + n))) nodes edges
      fileChurn ∧
    ((ranking nodes edges fileChurn).map Entry.node).Perm nodes ∧
    (∀ x ∈ ranking nodes edges fileChurn,
      x.callers = (calledBy edges x.node.name).card ∧ x.churn = churnOf fileChurn x.node ∧
        x.score = Real.logb 2 (1 + x.callers) * Real.logb 2 (1 + max x.churn 1)) ∧
    (∀ (filters : Filters) (top : Nat), rank exactScale nodes edges fileChurn filters top =
      ((ranking nodes edges fileChurn).filter fun x => filters.pass x.node).take top) ∧
    ∀ (i j : Nat) (x y : Entry ℝ), (ranking nodes edges fileChurn)[i]? = some x →
      (ranking nodes edges fileChurn)[j]? = some y → y.callers < x.callers → y.churn ≤ x.churn →
        i < j := by
  have hall : ranking nodes edges fileChurn = _ := rank_all hnames
  have hentry : ∀ x ∈ ranking nodes edges fileChurn, ∃ n ∈ nodes,
      entryOf exactScale edges fileChurn n = x := by
    intro x hx
    rw [hall, mem_mergeSort] at hx
    exact mem_map.1 hx
  refine ⟨rfl, ?_, ?_, rank_filtered hnames, ?_⟩
  · have hperm :=
      (mergeSort_perm (nodes.map (entryOf exactScale edges fileChurn)) Entry.before).map Entry.node
    rw [← hall, map_map] at hperm
    exact hperm.trans (List.Perm.of_eq (map_id nodes))
  · intro x hx
    obtain ⟨n, -, rfl⟩ := hentry x hx
    refine ⟨rfl, rfl, ?_⟩
    simp [entryOf, score, exactScale]
  · intro i j x y hx hy hcallers hchurn
    have hsorted := pairwise_mergeSort Entry.before_trans Entry.before_total
      (nodes.map (entryOf exactScale edges fileChurn))
    rw [← hall] at hsorted
    obtain ⟨m, -, rfl⟩ := hentry x (mem_of_getElem? hx)
    obtain ⟨n, -, rfl⟩ := hentry y (mem_of_getElem? hy)
    exact lt_of_score_lt hsorted hx hy (exactScore_lt hcallers hchurn)

theorem rank_commutes_and_dominates_total :
    rank exactScale [totalMethod, totalFunction] totalCalls none { kind := "function" } 1 =
      ((ranking [totalMethod, totalFunction] totalCalls none).filter fun x =>
        ({ kind := "function" } : Filters).pass x.node).take 1 ∧
    ∀ (i j : Nat) (x y : Entry ℝ), (ranking [totalMethod, totalFunction] totalCalls none)[i]? =
      some x → (ranking [totalMethod, totalFunction] totalCalls none)[j]? = some y →
      x.node = totalFunction → y.node = totalMethod → i < j := by
  have hnames :
      ∀ m ∈ [totalMethod, totalFunction], ∀ n ∈ [totalMethod, totalFunction], m.id = n.id →
      lower m.name = lower n.name := by
    have hne : totalMethod.id ≠ totalFunction.id := by decide
    simp [hne, hne.symm]
  have hcounts : (calledBy totalCalls "Cart.total").card < (calledBy totalCalls "total").card := by
    decide +kernel
  obtain ⟨-, -, hentries, hfiltered, hdominates⟩ :=
    rank_commutes_and_dominates [totalMethod, totalFunction] totalCalls none hnames
  refine ⟨hfiltered { kind := "function" } 1, fun i j x y hx hy hxnode hynode => ?_⟩
  obtain ⟨hxcallers, hxchurn, -⟩ := hentries x (mem_of_getElem? hx)
  obtain ⟨hycallers, hychurn, -⟩ := hentries y (mem_of_getElem? hy)
  rw [hxnode] at hxcallers hxchurn
  rw [hynode] at hycallers hychurn
  refine hdominates i j x y hx hy ?_ ?_
  · rw [hxcallers, hycallers]
    exact hcounts
  · rw [hxchurn, hychurn]
    exact le_rfl

end CodeAtlas.Hotspot
