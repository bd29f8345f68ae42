import Mathlib.Algebra.Order.BigOperators.Group.List
import Mathlib.Algebra.Order.Field.Basic
import Mathlib.Algebra.Order.Field.Rat
import Mathlib.Data.List.Forall2
import Mathlib.Tactic.Linarith
import Mathlib.Tactic.Positivity
import CodeAtlas.Proofs.Leading
import CodeAtlas.Proofs.OrderedMap
import CodeAtlas.Search.Fusion

/-!
# What a merge of ranked lists returns

A merge posts one share after the other to the standings. These hold, for each item that was posted
to, the sum of its shares and the payload posted last, in the order of first posting, which sorting
keeps among equal sums. With shares that are positive and fall from place to place, an item that
does at least as well as another in every list, and better in one, has the larger sum.
-/

namespace CodeAtlas.Search

open List

variable {P : Type}

/-! ## Ranked lists and their scores

What items score, said by the lists alone. -/

def named (ranked : List (String × P)) : List String :=
  ranked.map Prod.fst

/-- The share of a place, counted from zero, in exact arithmetic. -/
def exactShare (damping : Int) (place : Nat) : ℚ :=
  1 / ((damping : ℚ) + place + 1)

def shareIn (share : Nat → ℚ) (ranked : List (String × P)) (item : String) : ℚ :=
  if item ∈ named ranked then share ((named ranked).idxOf item) else 0

def score (share : Nat → ℚ) (lists : List (List (String × P))) (item : String) : ℚ :=
  (lists.map fun ranked => shareIn share ranked item).sum

/-- `payload` is what the last list that names the item has for it. -/
def LastPayload (lists : List (List (String × P))) (item : String) (payload : P) : Prop :=
  ∃ front ranked back, lists = front ++ ranked :: back ∧ (item, payload) ∈ ranked ∧
    ∀ later ∈ back, item ∉ named later

/-- The place at which the lists, read one after the other, first name an item. -/
def firstMet (lists : List (List (String × P))) (item : String) : Nat :=
  (lists.flatMap named).idxOf item

/-- `a` stands in every list in which `b` stands, nowhere behind it, and it is ahead of `b` in some
list or stands in a list without `b`. -/
structure Dominates (lists : List (List (String × P))) (a b : String) : Prop where
  nowhereBehind : ∀ ranked ∈ lists, b ∈ named ranked →
    a ∈ named ranked ∧ (named ranked).idxOf a ≤ (named ranked).idxOf b
  somewhereAhead : ∃ ranked ∈ lists, a ∈ named ranked ∧
    (b ∈ named ranked → (named ranked).idxOf a < (named ranked).idxOf b)

section Shares

variable {damping : Int} (hdamping : 0 ≤ damping)

include hdamping

theorem exactShare_pos (place : Nat) : 0 < exactShare damping place := by
  have hcast : (0 : ℚ) ≤ damping := by exact_mod_cast hdamping
  unfold exactShare
  positivity

theorem exactShare_strictAnti : StrictAnti (exactShare damping) := by
  intro i j hij
  have hcast : (0 : ℚ) ≤ damping := by exact_mod_cast hdamping
  have hlt : (i : ℚ) < j := by exact_mod_cast hij
  unfold exactShare
  refine one_div_lt_one_div_of_lt ?_ ?_
  · positivity
  · linarith

end Shares

/-- Whatever the shares are, as long as they are positive and fall with the places. -/
theorem Dominates.score_lt {share : Nat → ℚ} (hpos : ∀ place, 0 < share place)
    (hanti : StrictAnti share)
    {lists : List (List (String × P))} {a b : String} (h : Dominates lists a b) :
    score share lists b < score share lists a := by
  refine sum_lt_sum _ _ (fun ranked hranked => ?_) ?_
  · by_cases hb : b ∈ named ranked
    · obtain ⟨ha, hle⟩ := h.nowhereBehind ranked hranked hb
      rw [shareIn, shareIn, if_pos ha, if_pos hb]
      exact hanti.antitone hle
    · rw [shareIn, if_neg hb, shareIn]
      split
      · exact (hpos _).le
      · exact le_rfl
  · obtain ⟨ranked, hranked, ha, hahead⟩ := h.somewhereAhead
    refine ⟨ranked, hranked, ?_⟩
    rw [shareIn, shareIn, if_pos ha]
    by_cases hb : b ∈ named ranked
    · rw [if_pos hb]
      exact hanti (hahead hb)
    · rw [if_neg hb]
      exact hpos _

/-! ## Postings

A merge posts one share after the other; sums and payloads are read off the sequence. -/

/-- One share that is posted: to which item, with which payload, and how much. -/
structure Posting (P : Type) where
  item : String
  payload : P
  share : ℚ

variable {ps : List (Posting P)}

namespace Posting

def ofList (share : Nat → ℚ) (place : Nat) : List (String × P) → List (Posting P)
  | [] => []
  | (item, payload) :: rest => ⟨item, payload, share place⟩ :: ofList share (place + 1) rest

def post (standings : Standings ℚ P) (p : Posting P) : Standings ℚ P :=
  earn 0 standings p.item p.payload p.share

def total (ps : List (Posting P)) (item : String) : ℚ :=
  ((ps.filter fun p => p.item = item).map Posting.share).sum

def last? (ps : List (Posting P)) (item : String) : Option P :=
  (ps.reverse.find? fun p => p.item = item).map Posting.payload

theorem takeIn_eq_foldl (share : Nat → ℚ) (place : Nat) (standings : Standings ℚ P)
    (ranked : List (String × P)) :
    takeIn 0 share place standings ranked = (ofList share place ranked).foldl post standings := by
  induction ranked generalizing place standings with
  | nil => rfl
  | cons head rest ih => exact ih (place + 1) _

theorem foldl_takeIn (share : Nat → ℚ) (standings : Standings ℚ P)
    (lists : List (List (String × P))) :
    lists.foldl (fun s ranked => takeIn 0 share 0 s ranked) standings =
      (lists.flatMap (ofList share 0)).foldl post standings := by
  simp only [takeIn_eq_foldl, foldl_flatMap]

theorem map_item_ofList (share : Nat → ℚ) (place : Nat) (ranked : List (String × P)) :
    (ofList share place ranked).map Posting.item = named ranked := by
  induction ranked generalizing place with
  | nil => rfl
  | cons head rest ih => exact congrArg (head.1 :: ·) (ih (place + 1))

theorem map_item_flatMap_ofList (share : Nat → ℚ) (lists : List (List (String × P))) :
    (lists.flatMap (ofList share 0)).map Posting.item = lists.flatMap named := by
  rw [map_flatMap]
  exact flatMap_congr fun ranked _ => map_item_ofList share 0 ranked

variable {ranked : List (String × P)} {item : String}

theorem mem_of_mem_ofList {share : Nat → ℚ} {place : Nat} {p : Posting P}
    (h : p ∈ ofList share place ranked) : (p.item, p.payload) ∈ ranked := by
  induction ranked generalizing place with
  | nil => cases h
  | cons head rest ih =>
    rcases mem_cons.1 h with rfl | h
    · exact mem_cons_self
    · exact mem_cons_of_mem _ (ih h)

theorem total_append (ps qs : List (Posting P)) (item : String) :
    total (ps ++ qs) item = total ps item + total qs item := by
  rw [total, filter_append, map_append, sum_append, total, total]

theorem total_singleton (p : Posting P) (item : String) :
    total [p] item = if p.item = item then p.share else 0 := by
  unfold total
  split <;> simp_all

theorem total_of_not_mem (h : item ∉ ps.map Posting.item) : total ps item = 0 := by
  rw [total, filter_eq_nil_iff.2]
  · rfl
  · intro p hp heq
    exact h (mem_map.2 ⟨p, hp, of_decide_eq_true heq⟩)

theorem total_ofList (share : Nat → ℚ) (place : Nat) (hnodup : (named ranked).Nodup)
    (item : String) :
    total (ofList share place ranked) item =
      if item ∈ named ranked then share (place + (named ranked).idxOf item) else 0 := by
  induction ranked generalizing place with
  | nil => rfl
  | cons head rest ih =>
    obtain ⟨hnew, hrest⟩ := nodup_cons.1 hnodup
    have hsplit : total (ofList share place (head :: rest)) item =
        (if head.1 = item then share place else 0) + total (ofList share (place + 1) rest)
          item := by
      rw [← total_singleton ⟨head.1, head.2, share place⟩, ← total_append]
      rfl
    rw [hsplit, show named (head :: rest) = head.1 :: named rest from rfl]
    by_cases hitem : head.1 = item
    · subst hitem
      have hzero : total (ofList share (place + 1) rest) head.1 = 0 :=
        total_of_not_mem (by rwa [map_item_ofList])
      simp [hzero]
    · rw [ih (place + 1) hrest, idxOf_cons_ne _ hitem]
      simp only [mem_cons, Ne.symm hitem, hitem, false_or, if_false, zero_add, Nat.add_assoc,
        Nat.add_comm 1]

theorem total_flatMap_ofList (share : Nat → ℚ) {lists : List (List (String × P))}
    (hnodup : ∀ ranked ∈ lists, (named ranked).Nodup) (item : String) :
    total (lists.flatMap (ofList share 0)) item = score share lists item := by
  induction lists with
  | nil => rfl
  | cons ranked rest ih =>
    rw [flatMap_cons, total_append, ih fun r hr => hnodup r (mem_cons_of_mem _ hr),
      total_ofList share 0 (hnodup ranked mem_cons_self)]
    simp only [Nat.zero_add, score, map_cons, sum_cons, shareIn]

theorem last?_append (ps qs : List (Posting P)) (item : String) :
    last? (ps ++ qs) item = (last? qs item).or (last? ps item) := by
  rw [last?, reverse_append, find?_append, Option.map_or, last?, last?]

theorem last?_singleton (p : Posting P) (item : String) :
    last? [p] item = if p.item = item then some p.payload else none := by
  unfold last?
  split <;> simp_all

theorem last?_eq_none_iff : last? ps item = none ↔ item ∉ ps.map Posting.item := by
  simp [last?]

theorem exists_of_last?_eq_some {payload : P} (h : last? ps item = some payload) :
    ∃ p ∈ ps, p.item = item ∧ p.payload = payload := by
  obtain ⟨p, hfind, hpayload⟩ := Option.map_eq_some_iff.1 h
  have hitem := find?_some hfind
  exact ⟨p, mem_reverse.1 (mem_of_find?_eq_some hfind), of_decide_eq_true hitem, hpayload⟩

theorem lastPayload_of_last? {share : Nat → ℚ} {lists : List (List (String × P))} {payload : P}
    (h : last? (lists.flatMap (ofList share 0)) item = some payload) :
    LastPayload lists item payload := by
  induction lists using List.reverseRecOn with
  | nil => cases h
  | append_singleton lists ranked ih =>
    rw [flatMap_append, flatMap_singleton, last?_append] at h
    cases hlast : last? (ofList share 0 ranked) item with
    | some found =>
      rw [hlast] at h
      cases h
      obtain ⟨p, hp, rfl, rfl⟩ := exists_of_last?_eq_some hlast
      exact ⟨lists, ranked, [], rfl, mem_of_mem_ofList hp, fun _ hlater => nomatch hlater⟩
    | none =>
      rw [hlast, Option.none_or] at h
      obtain ⟨front, source, back, rfl, hsource, hback⟩ := ih h
      refine ⟨front, source, back ++ [ranked], by simp, hsource, fun later hlater => ?_⟩
      rcases mem_append.1 hlater with hlater | hlater
      · exact hback later hlater
      · rw [mem_singleton.1 hlater, ← map_item_ofList share 0]
        exact last?_eq_none_iff.1 hlast

end Posting

open Posting

/-- The standings that a sequence of postings leads to. -/
structure Standings.Account (s : Standings ℚ P) (ps : List (Posting P)) : Prop where
  nodup : s.keys.Nodup
  mem_keys : ∀ item, item ∈ s.keys ↔ item ∈ ps.map Posting.item
  inOrder : s.keys.Pairwise fun a b => (ps.map Posting.item).idxOf a < (ps.map Posting.item).idxOf b
  get?_eq : ∀ item, s.get? item = (last? ps item).map fun payload => (total ps item, payload)

theorem Standings.Account.post {s : Standings ℚ P} (h : s.Account ps) (p : Posting P) :
    Standings.Account (post s p) (ps ++ [p]) := by
  have hpost : Posting.post s p = s.insert p.item (total ps p.item + p.share, p.payload) := by
    rw [Posting.post, earn, h.get?_eq]
    cases hlast : last? ps p.item with
    | some payload => rfl
    | none =>
      rw [total_of_not_mem (last?_eq_none_iff.1 hlast)]
      rfl
  have hitems : (ps ++ [p]).map Posting.item = ps.map Posting.item ++ [p.item] := map_append
  -- an item met before keeps the place at which it was first met
  have hkept {item : String} (hitem : item ∈ s.keys) :
      ((ps ++ [p]).map Posting.item).idxOf item = (ps.map Posting.item).idxOf item := by
    rw [hitems, idxOf_append_of_mem ((h.mem_keys item).1 hitem)]
  rw [hpost]
  refine ⟨OrderedMap.nodup_keys_insert h.nodup _, fun item => ?_, ?_, fun item => ?_⟩
  · rw [OrderedMap.keys_insert, hitems]
    have hmem := h.mem_keys
    split <;> grind
  · have hold : s.keys.Pairwise fun a b =>
        ((ps ++ [p]).map Posting.item).idxOf a < ((ps ++ [p]).map Posting.item).idxOf b :=
      h.inOrder.imp_of_mem fun ha hb hlt => by rwa [hkept ha, hkept hb]
    rw [OrderedMap.keys_insert]
    split
    · exact hold
    · next hnew =>
      refine pairwise_append.2 ⟨hold, pairwise_singleton _ _, fun a ha b hb => ?_⟩
      rw [mem_singleton.1 hb, hkept ha, hitems,
        idxOf_append_of_notMem fun hmem => hnew ((h.mem_keys p.item).2 hmem)]
      exact Nat.lt_add_right _ (idxOf_lt_length_of_mem ((h.mem_keys a).1 ha))
  · rw [OrderedMap.get?_insert, h.get?_eq, total_append, total_singleton, last?_append,
      last?_singleton]
    by_cases hitem : item = p.item
    · simp [hitem]
    · simp [hitem, Ne.symm hitem]

/-- The run, by induction on the postings. -/
theorem account_foldl_post (ps : List (Posting P)) :
    Standings.Account (ps.foldl post ({} : Standings ℚ P)) ps := by
  induction ps using List.reverseRecOn with
  | nil => exact ⟨nodup_nil, fun _ => Iff.rfl, .nil, fun _ => rfl⟩
  | append_singleton ps p ih =>
    rw [foldl_append]
    exact ih.post p

/-! ## Sorting the standings

The sort is stable, which settles the order of equal sums. -/

/-- The order in which entries are returned: the larger sum first. -/
def ahead (a b : String × (ℚ × P)) : Bool :=
  !(a.2.1 < b.2.1)

theorem ahead_iff {a b : String × (ℚ × P)} : ahead a b ↔ b.2.1 ≤ a.2.1 := by
  simp [ahead]

theorem ahead_trans (a b c : String × (ℚ × P)) (hab : ahead a b) (hbc : ahead b c) : ahead a c :=
  ahead_iff.2 ((ahead_iff.1 hbc).trans (ahead_iff.1 hab))

theorem ahead_total (a b : String × (ℚ × P)) : (ahead a b || ahead b a) := by
  rw [Bool.or_eq_true, ahead_iff, ahead_iff]
  exact le_total _ _

theorem filter_mergeSort_ahead (entries : List (String × (ℚ × P))) (sum : ℚ) :
    (entries.mergeSort ahead).filter (fun e => e.2.1 = sum) = entries.filter fun e => e.2.1 =
      sum := by
  -- the entries of one sum are in order already
  have hties : (entries.filter fun e => e.2.1 = sum).Pairwise fun a b => ahead a b := by
    refine pairwise_of_forall_mem_list fun a ha b hb => ahead_iff.2 (le_of_eq ?_)
    rw [of_decide_eq_true (mem_filter.1 ha).2, of_decide_eq_true (mem_filter.1 hb).2]
  rw [filter_mergeSort ahead_trans ahead_total, mergeSort_of_pairwise hties]

/-- Sorted entries stand by falling sums, and those of one sum as they stood before. -/
theorem pairwise_mergeSort_ahead {entries : List (String × (ℚ × P))}
    {R : String × (ℚ × P) → String × (ℚ × P) → Prop} (h : entries.Pairwise R) :
    (entries.mergeSort ahead).Pairwise fun a b => b.2.1 ≤ a.2.1 ∧ (a.2.1 = b.2.1 → R a b) := by
  have hfalling := pairwise_mergeSort ahead_trans ahead_total entries
  refine pairwise_iff_forall_sublist.2 fun {a b} hab => ⟨?_, fun htie => ?_⟩
  · exact ahead_iff.1 (pairwise_iff_forall_sublist.1 hfalling hab)
  · -- restricted to one sum, the sorted entries are the entries themselves
    have hsub := hab.filter fun e => decide (e.2.1 = b.2.1)
    rw [filter_mergeSort_ahead] at hsub
    simp only [htie, decide_true, filter_cons_of_pos, filter_nil] at hsub
    exact pairwise_iff_forall_sublist.1 h (hsub.trans filter_sublist)

theorem values_mergeSort (s : Standings ℚ P) :
    (s.values.mergeSort fun a b => !(a.1 < b.1)) = (s.entries.mergeSort ahead).map Prod.snd := by
  refine (map_mergeSort (f := Prod.snd) fun a _ b _ => ?_).symm
  rfl

theorem reciprocalRank?_eq_some {damping : Int} (hdamping : 0 ≤ damping)
    (lists : List (List (String × P))) :
    reciprocalRank? damping lists =
      some (fuse 0.0 (fun place => 1.0 / Float.ofInt (damping + place + 1)) lists) := by
  refine if_neg fun hzero => ?_
  obtain ⟨place, -, hplace⟩ := any_eq_true.1 hzero
  have := eq_of_beq hplace
  omega

theorem idxOf_lt_of_score_lt {order : List String} {value : String → ℚ}
    (hfalling : order.Pairwise fun a b => value b ≤ value a) {a b : String} (ha : a ∈ order)
    (hlt : value b < value a) : order.idxOf a < order.idxOf b := by
  by_contra hle
  have hia := idxOf_lt_length_of_mem ha
  have hne : order.idxOf b ≠ order.idxOf a := by
    intro heq
    rw [(idxOf_inj (idxOf_lt_length_iff.1 (heq ▸ hia))).1 heq] at hlt
    exact lt_irrefl _ hlt
  have hib : order.idxOf b < order.idxOf a := by omega
  have hge := pairwise_iff_getElem.1 hfalling _ _ (hib.trans hia) hia hib
  rw [getElem_idxOf, getElem_idxOf] at hge
  exact absurd hlt hge.not_gt

section Merged

variable {share : Nat → ℚ} {lists : List (List (String × P))} {s : Standings ℚ P}
  (h : s.Account (lists.flatMap (ofList share 0))) (hnodup : ∀ ranked ∈ lists, (named ranked).Nodup)

include h hnodup

theorem Standings.Account.of_mem_entries {e : String × (ℚ × P)} (he : e ∈ s.entries) :
    e.2.1 = score share lists e.1 ∧ LastPayload lists e.1 e.2.2 := by
  have hget := (OrderedMap.mem_entries_iff h.nodup).1 he
  rw [h.get?_eq] at hget
  obtain ⟨payload, hlast, heq⟩ := Option.map_eq_some_iff.1 hget
  rw [← heq]
  exact ⟨total_flatMap_ofList share hnodup e.1, lastPayload_of_last? hlast⟩

theorem Standings.Account.pairwise_sorted :
    ((s.entries.mergeSort ahead).map Prod.fst).Pairwise fun a b =>
      score share lists b ≤ score share lists a ∧
      (score share lists a = score share lists b → firstMet lists a < firstMet lists b) := by
  have hmet := h.inOrder
  rw [map_item_flatMap_ofList] at hmet
  refine pairwise_map.2 ((pairwise_mergeSort_ahead (pairwise_map.1 hmet)).imp_of_mem fun ha hb
    hab => ?_)
  rwa [(h.of_mem_entries hnodup (mem_mergeSort.1 ha)).1,
    (h.of_mem_entries hnodup (mem_mergeSort.1 hb)).1] at hab

end Merged

/-- A merge returns every item of the lists once, by falling scores, those of one score as they were
first met, each with the payload of the last list that names it; and an item stands before each one
that it dominates. -/
theorem fuse_respects_dominance {damping : Int} (hdamping : 0 ≤ damping)
    (lists : List (List (String × P))) (hnodup : ∀ ranked ∈ lists, (named ranked).Nodup) :
    reciprocalRank? damping lists =
      some (fuse 0.0 (fun place => 1.0 / Float.ofInt (damping + place + 1)) lists) ∧
    ∃ order : List String,
      order.Nodup ∧
      (∀ item, item ∈ order ↔ ∃ ranked ∈ lists, item ∈ named ranked) ∧
      List.Forall₂ (fun item result => result.1 = score (exactShare damping) lists item ∧
          LastPayload lists item result.2) order (fuse 0 (exactShare damping) lists) ∧
      order.Pairwise (fun a b =>
        score (exactShare damping) lists b ≤ score (exactShare damping) lists a ∧
        (score (exactShare damping) lists a = score (exactShare damping) lists b →
          firstMet lists a < firstMet lists b)) ∧
      ∀ a b, Dominates lists a b → order.idxOf a < order.idxOf b := by
  refine ⟨reciprocalRank?_eq_some hdamping lists, ?_⟩
  have haccount := account_foldl_post (lists.flatMap (ofList (exactShare damping) 0))
  rw [← foldl_takeIn] at haccount
  have hfuse : fuse 0 (exactShare damping) lists = _ := values_mergeSort _
  generalize lists.foldl (fun s ranked => takeIn 0 (exactShare damping) 0 s ranked) {} =
    s at haccount hfuse
  have hperm : ((s.entries.mergeSort ahead).map Prod.fst).Perm s.keys := (mergeSort_perm _ _).map _
  have hmem (item : String) :
      item ∈ (s.entries.mergeSort ahead).map Prod.fst ↔ ∃ ranked ∈ lists, item ∈ named ranked := by
    rw [hperm.mem_iff, haccount.mem_keys, map_item_flatMap_ofList, mem_flatMap]
  have hsorted := haccount.pairwise_sorted hnodup
  refine ⟨_, hperm.nodup_iff.2 haccount.nodup, hmem, ?_, hsorted, fun a b hab => ?_⟩
  · rw [hfuse, forall₂_map_left_iff, forall₂_map_right_iff, forall₂_same]
    exact fun e he => haccount.of_mem_entries hnodup (mem_mergeSort.1 he)
  · obtain ⟨ranked, hranked, ha, -⟩ := hab.somewhereAhead
    exact idxOf_lt_of_score_lt (hsorted.imp And.left) ((hmem a).2 ⟨ranked, hranked, ha⟩)
      (hab.score_lt (exactShare_pos hdamping) (exactShare_strictAnti hdamping))

theorem fuse_respects_dominance_two_lists :
    Dominates [[("a", 1), ("b", 2)], [("b", 3), ("c", 4)]] "b" "c" ∧
    ∃ order : List String, order.Nodup ∧ order.length = (fuse 0 (exactShare 60)
      [[("a", 1), ("b", 2)], [("b", 3), ("c", 4)]]).length ∧ order.idxOf "b" < order.idxOf "c" := by
  have hdominates : Dominates [[("a", 1), ("b", 2)], [("b", 3), ("c", 4)]] "b" "c" :=
    ⟨by decide, by decide⟩
  obtain ⟨-, order, hnodup, -, hresults, -, hbefore⟩ :=
    fuse_respects_dominance (show (0 : Int) ≤ 60 by decide)
    [[("a", 1), ("b", 2)], [("b", 3), ("c", 4)]] (by decide)
  exact ⟨hdominates, order, hnodup, hresults.length_eq, hbefore "b" "c" hdominates⟩

end CodeAtlas.Search
