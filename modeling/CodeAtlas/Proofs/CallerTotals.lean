import Mathlib.Data.Finset.Card
import CodeAtlas.Proofs.CallerLayers
import CodeAtlas.Proofs.Cutting
import CodeAtlas.Proofs.Numerals

/-!
# What the report on callers adds up

The report closes with two numbers: how many callers were found, and across how many hops. The first
is the number of entries of all hops, and a caller has one for each call through which a hop finds
it. The second is the hop at which the walk stopped, which may be one that found nothing.
-/

namespace CodeAtlas.Report

open List

variable {nodes : List Node} {edges : List Edge} {names reached : List String} {name : String}
  {k : Nat}

/-! ## Calls that lead nearer

A node is listed once for each of its calls that lead nearer. -/

/-- A call comes from a node that is one call further away than what its text mentions. -/
def NearsAt (g : CallGoal) (k : Nat) (e : Edge) : Prop :=
  ∃ n, n.id = e.source ∧ g.Distance (k + 1) n ∧ ∃ w, g.Wanted k w ∧
    Text.containsWord w e.context = true

/-- A call is the first of a shortest chain of at most as many calls. -/
def Nears (g : CallGoal) (depth : Nat) (e : Edge) : Prop :=
  ∃ k, k < depth ∧ NearsAt g k e

variable {e : Edge} {calls : List Edge} {depth : Int}

theorem NearsAt.unique {g : CallGoal} {j : Nat} (hheld : ∀ n, g.through n → Held nodes n)
    (hj : NearsAt g j e) (hk : NearsAt g k e) : j = k := by
  obtain ⟨m, hm, hdistance, -⟩ := hj
  obtain ⟨n, hn, hdistance', -⟩ := hk
  have heq : m = n := (hheld m hdistance.through).eq (hheld n hdistance'.through) (hm.trans hn.symm)
  subst heq
  exact Nat.succ.inj (hdistance.unique hdistance')

section Counting

open Classical

/-- A round of a walk has one entry for each call that leads nearer there. -/
theorem filter_callerThrough? {g : CallGoal} {words known : List String}
    (h : Front g nodes k words known)
    (he : e ∈ g.calls) : ((callerThrough? nodes words e).filter fun n => !known.contains n.id) =
      if NearsAt g k e then nodeWithId? nodes e.source else none := by
  -- both sides are none or a node; compare what it takes to be a given node
  ext n
  have hfound : (callerThrough? nodes words e).filter (fun n => !known.contains n.id) = some n ↔
      (Held nodes n ∧ e.source = n.id ∧ ∃ w, w ∈ words ∧ Text.containsWord w e.context) ∧
        n.id ∉ known := by
    simp [Option.filter_eq_some_iff, callerThrough?_eq_some_iff]
  have hnears : (if NearsAt g k e then nodeWithId? nodes e.source else none) = some n ↔
      NearsAt g k e ∧ n.id = e.source ∧ Held nodes n := by
    rw [← nodeWithId?_eq_some_iff]
    split <;> simp_all
  rw [hfound, hnears]
  constructor
  · rintro ⟨⟨hheld, hsource, w, hw, hword⟩, hnew⟩
    have hdistance := h.fresh_iff.1 ⟨hheld, hnew, w, hw, e, he, hsource, hword⟩
    exact ⟨⟨n, hsource.symm, hdistance, w, (h.mem_words_iff w).1 hw, hword⟩, hsource.symm, hheld⟩
  · rintro ⟨⟨m, hm, hdistance, w, hw, hword⟩, hsource, hheld⟩
    have heq : m = n := (h.held m hdistance.through).eq hheld (hm.trans hsource.symm)
    subst heq
    exact ⟨⟨hheld, hm.symm, w, (h.mem_words_iff w).2 hw, hword⟩, (h.fresh_iff.2 hdistance).2.1⟩

theorem filter_append_filter_perm {α : Type} {p q r : α → Prop} {l : List α}
    (hor : ∀ x, r x ↔ p x ∨ q x)
    (hnot : ∀ x, p x → ¬ q x) : (l.filter p ++ l.filter q).Perm (l.filter r) := by
  have hperm := filter_append_perm (fun x => decide (p x)) (l.filter r)
  rw [filter_filter, filter_filter] at hperm
  refine List.Perm.trans (.of_eq ?_) hperm
  congr 1
  · refine filter_congr fun x _ => ?_
    by_cases hp : p x
    · simp [hp, hor]
    · simp [hp]
  · refine filter_congr fun x _ => ?_
    by_cases hp : p x
    · simp [hp, hnot x hp]
    · simp [hp, hor]

theorem flatten_callerHops_succ (depth : Nat) :
    (callerHops nodes calls (depth + 1) names reached).flatten = nextHop nodes calls names
      reached ++ (callerHops nodes calls depth (nextNames (nextHop nodes calls names reached))
        (reached ++ (nextHop nodes calls names reached).map (·.1.id))).flatten := by
  rw [callerHops_succ, flatten_append]
  cases nextHop nodes calls names reached with
  | nil => rfl
  | cons site hop => simp

/-- What a walk lists are the sources of the calls that lead nearer, one entry for each. -/
theorem perm_listed (h : Front (symbolGoal nodes edges name) nodes k (names.map bareName) reached)
    (depth : Nat) :
    ((callerHops nodes (callEdgesOf edges) depth names reached).flatten.map (·.1)).Perm
      (((callEdgesOf edges).filter fun e =>
        ∃ j, k ≤ j ∧ j < k + depth ∧ NearsAt (symbolGoal nodes edges name) j e).filterMap
          fun e => nodeWithId? nodes e.source) := by
  induction depth generalizing k names reached with
  | zero =>
    rw [callerHops, filter_eq_nil_iff.2]
    · exact .nil
    · intro e _ hnears
      obtain ⟨j, hlow, hhigh, -⟩ := of_decide_eq_true hnears
      omega
  | succ depth ih =>
    have hhop : ((nextHop nodes (callEdgesOf edges) names reached).map (·.1)).Perm
        (((callEdgesOf edges).filter fun e => NearsAt (symbolGoal nodes edges name) k e).filterMap
          fun e => nodeWithId? nodes e.source) := by
      refine (map_fst_byFile_perm _).trans (.of_eq ?_)
      rw [map_fst_callersOf, filterMap_filter]
      refine filterMap_congr fun e he => ?_
      rw [filter_callerThrough? h he]
      simp
    -- no call leads nearer at two distances, so this hop and the later ones share no entry
    rw [flatten_callerHops_succ, map_append]
    refine (hhop.append (ih (front_nextHop h))).trans ?_
    rw [← filterMap_append]
    refine (filter_append_filter_perm (fun e => ?_) fun e hnow hlater => ?_).filterMap _
    · constructor
      · rintro ⟨j, hlow, hhigh, hnears⟩
        rcases Nat.lt_or_eq_of_le hlow with hlater | rfl
        · exact .inr ⟨j, hlater, by omega, hnears⟩
        · exact .inl hnears
      · rintro (hnears | ⟨j, hlow, hhigh, hnears⟩)
        · exact ⟨k, by omega, by omega, hnears⟩
        · exact ⟨j, by omega, by omega, hnears⟩
    · obtain ⟨j, hlow, -, hnears⟩ := hlater
      have heq := hnow.unique h.held hnears
      omega

theorem perm_listed_symbolHops (nodes : List Node) (edges : List Edge) (name : String)
    (depth : Int) :
    ((symbolHops nodes edges name depth).flatten.map (·.1)).Perm
      (((callEdgesOf edges).filter fun e => Nears (symbolGoal nodes edges name) (clampDepth depth)
        e).filterMap fun e => nodeWithId? nodes e.source) := by
  have hperm := perm_listed (@front_symbolGoal nodes edges name) (clampDepth depth)
  refine hperm.trans (.of_eq (congrArg _ (filter_congr fun e _ => decide_eq_decide.2 ?_)))
  simp [Nears]

theorem Nears.exists_source {depth : Nat} (h : Nears (symbolGoal nodes edges name) depth e) :
    ∃ n, nodeWithId? nodes e.source = some n := by
  obtain ⟨k, -, n, hid, hdistance, -⟩ := h
  exact ⟨n, nodeWithId?_eq_some_iff.2 ⟨hid, hdistance.through⟩⟩

/-- The entries of all hops are as many as the calls that lead nearer. -/
theorem reachedCount_symbolHops (nodes : List Node) (edges : List Edge) (name : String)
    (depth : Int) :
    reachedCount (symbolHops nodes edges name depth) =
      (callEdgesOf edges).countP fun e => Nears (symbolGoal nodes edges name)
        (clampDepth depth) e := by
  have hlength := (perm_listed_symbolHops nodes edges name depth).length_eq
  rw [length_map, length_filterMap_eq_countP, countP_eq_length.2,
    ← countP_eq_length_filter] at hlength
  · exact hlength
  · intro e he
    obtain ⟨n, hn⟩ := Nears.exists_source (of_decide_eq_true (mem_filter.1 he).2)
    rw [hn]
    rfl

end Counting

/-- No entry is repeated exactly if no node has two calls that lead nearer. -/
theorem nodup_entries_iff (nodes : List Node) (edges : List Edge) (name : String) (depth : Int) :
    ((symbolHops nodes edges name depth).flatten.map (·.1)).Nodup ↔
      (callEdgesOf edges).Pairwise fun e e' => Nears (symbolGoal nodes edges name)
        (clampDepth depth) e →
        Nears (symbolGoal nodes edges name) (clampDepth depth) e' → e.source ≠ e'.source := by
  classical
  rw [(perm_listed_symbolHops nodes edges name depth).nodup_iff, List.Nodup, pairwise_filterMap,
    pairwise_filter]
  refine List.Pairwise.iff fun e e' => ?_
  simp only [decide_eq_true_eq]
  refine forall₂_congr fun hnears hnears' => ⟨fun hne hsame => ?_,
    fun hne n hn n' hn' heq => hne ?_⟩
  · obtain ⟨n, hn⟩ := hnears.exists_source
    exact hne n hn n (hsame ▸ hn) rfl
  · rw [← (nodeWithId?_eq_some_iff.1 hn).1, heq, (nodeWithId?_eq_some_iff.1 hn').1]

theorem length_callerHops_le (depth : Nat) :
    (callerHops nodes calls depth names reached).length ≤ depth := by
  induction depth generalizing names reached with
  | zero => exact Nat.le_refl 0
  | succ depth ih =>
    rw [callerHops_succ, length_append]
    have hfirst :=
      length_filter_le (fun hop : Hop => !hop.isEmpty) [nextHop nodes calls names reached]
    have hrest := @ih (nextNames (nextHop nodes calls names reached))
      (reached ++ (nextHop nodes calls names reached).map (·.1.id))
    rw [length_singleton] at hfirst
    omega

theorem isEmpty_of_mem_callerHops {depth : Nat} {hop : Hop}
    (h : hop ∈ callerHops nodes calls depth names reached) : hop.isEmpty = false := by
  induction depth generalizing names reached with
  | zero => exact absurd h not_mem_nil
  | succ depth ih =>
    rw [callerHops_succ] at h
    rcases mem_append.1 h with h | h
    · simpa using (mem_filter.1 h).2
    · exact ih h

theorem length_symbolHops_eq_iff : (symbolHops nodes edges name depth).length = clampDepth depth ↔
    ∃ n, (symbolGoal nodes edges name).Distance (clampDepth depth) n := by
  have hlisted (n : Node) : n ∈ listedAt (symbolHops nodes edges name depth) (clampDepth depth) ↔
      (symbolGoal nodes edges name).Distance (clampDepth depth) n := by
    rw [mem_listedAt_symbolHops_iff]
    exact and_iff_right (Nat.le_refl _)
  obtain ⟨d, hd⟩ : ∃ d, clampDepth depth = d + 1 :=
    ⟨clampDepth depth - 1, by unfold clampDepth; omega⟩
  have hle : (symbolHops nodes edges name depth).length ≤ clampDepth depth := length_callerHops_le _
  simp only [← hlisted]
  rw [hd] at hle ⊢
  constructor
  · -- the last hop of the walk lists a node, as all hops do
    intro hlength
    have hlast : d < (symbolHops nodes edges name depth).length := by omega
    have hshown := isEmpty_of_mem_callerHops (getElem_mem hlast)
    obtain ⟨site, rest, hhop⟩ := exists_cons_of_ne_nil (isEmpty_eq_false_iff.1 hshown)
    rw [listedAt, getElem?_eq_getElem hlast, hhop]
    exact ⟨site.1, mem_cons_self⟩
  · rintro ⟨n, hn⟩
    by_contra hne
    rw [listedAt, getElem?_eq_none (by omega)] at hn
    exact not_mem_nil hn

/-! ## The closing line

Its text determines the two numbers, so it is right exactly if both are. -/

def totalLine (count hops : Nat) : String :=
  "\nTotal callers found: " ++ toString count ++ " across " ++ toString hops ++ " hop(s)."

theorem totalLine_inj {count hops count' hops' : Nat}
    (h : totalLine count hops = totalLine count' hops') : count = count' ∧ hops = hops' := by
  unfold totalLine at h
  rw [← String.toList_inj] at h
  simp only [String.toList_append, append_assoc] at h
  rw [append_cancel_left_eq] at h
  have hblank (r : List Char) : Json.NoDigit (" across ".toList ++ r) := by
    intro c hc
    obtain rfl : c = ' ' := by simpa [eq_comm] using hc
    decide
  have hend : Json.NoDigit " hop(s).".toList := by
    intro c hc
    obtain rfl : c = ' ' := by simpa [eq_comm] using hc
    decide
  obtain ⟨hcount, hrest⟩ := Json.append_toString_inj (hblank _) (hblank _) h
  rw [append_cancel_left_eq] at hrest
  exact ⟨hcount, (Json.append_toString_inj hend hend hrest).1⟩

theorem callersText_inj {hops : List Hop} {closing closing' : String}
    (h : callersText nodes name hops closing = callersText nodes name hops closing') :
    closing = closing' := by
  unfold callersText at h
  rw [← cons_append, ← cons_append, ← String.toList_inj,
    Text.toList_join_append_join "\n" (cons_ne_nil _ _) (cons_ne_nil closing []),
    Text.toList_join_append_join "\n" (cons_ne_nil _ _) (cons_ne_nil closing' [])] at h
  exact String.toList_inj.1 (append_cancel_left (append_cancel_left h))

def listedNodes (hops : List Hop) : Finset Node :=
  (hops.flatten.map (·.1)).toFinset

def shownHops (hops : List Hop) : Nat :=
  hops.countP (!·.isEmpty)

theorem reachedCount_eq_card_iff {hops : List Hop} :
    reachedCount hops = (listedNodes hops).card ↔ (hops.flatten.map (·.1)).Nodup := by
  rw [reachedCount, listedNodes, ← length_map (·.1), eq_comm]
  exact Multiset.toFinset_card_eq_card_iff_nodup

theorem shownHops_symbolHops (nodes : List Node) (edges : List Edge) (name : String) (depth : Int) :
    shownHops (symbolHops nodes edges name depth) = (symbolHops nodes edges name depth).length :=
  countP_eq_length.2 fun hop hhop => by simp [isEmpty_of_mem_callerHops hhop]

theorem lastHop_eq_length_iff :
    lastHop (clampDepth depth) (symbolHops nodes edges name depth) =
      (symbolHops nodes edges name depth).length ↔
      ∃ n, (symbolGoal nodes edges name).Distance (clampDepth depth) n := by
  have hle : (symbolHops nodes edges name depth).length ≤ clampDepth depth := length_callerHops_le _
  rw [← length_symbolHops_eq_iff, lastHop]
  omega

/-- The report on a symbol that some node calls closes with the totals. -/
theorem impactAnalysis_of_caller (hcaller : ∃ n, Held nodes n ∧
    CallsWord (callEdgesOf edges) n (bareName name)) :
    impactAnalysis nodes edges name depth "callers" = callersText nodes name
      (symbolHops nodes edges name depth)
      (totalLine (reachedCount (symbolHops nodes edges name depth))
        (lastHop (clampDepth depth) (symbolHops nodes edges name depth))) := by
  obtain ⟨n, hheld, hcall⟩ := hcaller
  have hone : (symbolGoal nodes edges name).Distance 1 n :=
    ⟨.direct hheld hcall, fun j hj => hj.pos⟩
  have hlisted : n ∈ listedAt (symbolHops nodes edges name depth) 1 :=
    mem_listedAt_symbolHops_iff.2 ⟨by unfold clampDepth; omega, hone⟩
  have hsome : ¬ (symbolHops nodes edges name depth).isEmpty := by
    intro hempty
    rw [List.isEmpty_iff.1 hempty] at hlisted
    exact not_mem_nil hlisted
  rw [impactAnalysis_callers, if_neg hsome]
  rfl

open Classical in
/-- **What the closing line says, and when that is right.** For a symbol with a caller, the closing
line gives the number of calls that are the first of a shortest chain, and the hop after the last
one shown unless that is the deepest. So the numbers are those of the callers and of the hops listed
exactly if no caller has two such calls and some caller is as far away as the walk may go. -/
theorem total_right_iff (nodes : List Node) (edges : List Edge) (name : String) (depth : Int)
    (hcaller : ∃ n, Held nodes n ∧ CallsWord (callEdgesOf edges) n (bareName name)) :
    impactAnalysis nodes edges name depth "callers" =
      callersText nodes name (symbolHops nodes edges name depth)
        (totalLine
          ((callEdgesOf edges).countP fun e =>
            Nears (symbolGoal nodes edges name) (clampDepth depth) e)
          (min (shownHops (symbolHops nodes edges name depth) + 1) (clampDepth depth))) ∧
    (impactAnalysis nodes edges name depth "callers" =
        callersText nodes name (symbolHops nodes edges name depth)
          (totalLine (listedNodes (symbolHops nodes edges name depth)).card
            (shownHops (symbolHops nodes edges name depth))) ↔
      ((callEdgesOf edges).Pairwise fun e e' =>
        Nears (symbolGoal nodes edges name) (clampDepth depth) e →
        Nears (symbolGoal nodes edges name) (clampDepth depth) e' → e.source ≠ e'.source) ∧
      ∃ n, (symbolGoal nodes edges name).Distance (clampDepth depth) n) := by
  rw [impactAnalysis_of_caller hcaller, shownHops_symbolHops, ← reachedCount_symbolHops]
  refine ⟨rfl, ?_⟩
  rw [← nodup_entries_iff, ← reachedCount_eq_card_iff, ← lastHop_eq_length_iff]
  constructor
  · intro h
    exact totalLine_inj (callersText_inj h)
  · rintro ⟨hcount, hlast⟩
    rw [hcount, hlast]

def payer : Node :=
  { id := "p", kind := .function, name := "pay", loc := { file := "shop.py", first := 1, last := 4 }
    language := "python" }

def payingNodes : List Node :=
  [{ id := "t", kind := .function, name := "total",
     loc := { file := "cart.py", first := 1, last := 2 }
     language := "python" }, payer]

def payingCalls : List Edge :=
  [{ source := "p", target := "", relation := .calls, context := "total(cart)" },
   { source := "p", target := "", relation := .calls, context := "total(other)" }]

theorem callsWord_payer (more : List Edge) :
    CallsWord (callEdgesOf (payingCalls.take 1 ++ more)) payer (bareName "total") := by
  have hword : Text.containsWord (bareName "total") "total(cart)" := by decide +kernel
  exact ⟨_, mem_cons_self, rfl, hword⟩

theorem symbolHops_paying :
    symbolHops payingNodes payingCalls "total" 3 = [[(payer, "total"), (payer, "total")]] ∧
    symbolHops payingNodes (payingCalls.take 1) "total" 1 = [[(payer, "total")]] := by
  obtain ⟨htwice, honce, hnone⟩ :
      callersOf payingNodes (callEdgesOf payingCalls) ["total"] [] =
        [(payer, "total"), (payer, "total")] ∧
      callersOf payingNodes (callEdgesOf (payingCalls.take 1)) ["total"] [] = [(payer, "total")] ∧
      callersOf payingNodes (callEdgesOf payingCalls) ["pay"] ["p", "p"] = [] := by decide +kernel
  have hsorted : byFile [(payer, "total"), (payer, "total")] =
      [(payer, "total"), (payer, "total")] :=
    mergeSort_of_pairwise (by decide +kernel)
  constructor
  · rw [symbolHops, show clampDepth 3 = 2 + 1 from rfl, callerHops_succ, nextHop, htwice, hsorted]
    exact congrArg (_ :: ·) (callerHops_eq_nil 2 hnone)
  · rw [symbolHops, show clampDepth 1 = 0 + 1 from rfl, callerHops_succ, nextHop, honce, byFile,
      mergeSort_singleton]
    rfl

/-- One caller at one hop is reported as two callers across two hops. With one call and one hop
allowed, the numbers are right. -/
theorem total_right_iff_paying :
    impactAnalysis payingNodes payingCalls "total" 3 "callers" =
      callersText payingNodes "total" (symbolHops payingNodes payingCalls "total" 3)
        (totalLine 2 2) ∧
    (listedNodes (symbolHops payingNodes payingCalls "total" 3)).card = 1 ∧
    shownHops (symbolHops payingNodes payingCalls "total" 3) = 1 ∧
    impactAnalysis payingNodes payingCalls "total" 3 "callers" ≠
      callersText payingNodes "total" (symbolHops payingNodes payingCalls "total" 3)
        (totalLine 1 1) ∧
    impactAnalysis payingNodes (payingCalls.take 1) "total" 1 "callers" =
      callersText payingNodes "total" (symbolHops payingNodes (payingCalls.take 1) "total" 1)
        (totalLine 1 1) := by
  have hheld : Held payingNodes payer := by decide +kernel
  obtain ⟨htwice, honce⟩ := symbolHops_paying
  have hone : (listedNodes [[(payer, "total"), (payer, "total")]]).card = 1 ∧
      (listedNodes [[(payer, "total")]]).card = 1 := by decide +kernel
  have hcaller : ∃ n, Held payingNodes n ∧ CallsWord (callEdgesOf payingCalls) n
      (bareName "total") :=
    ⟨payer, hheld, callsWord_payer (payingCalls.drop 1)⟩
  have hiff := (total_right_iff payingNodes payingCalls "total" 3 hcaller).2
  have hiff₁ := (total_right_iff payingNodes (payingCalls.take 1) "total" 1
    ⟨payer, hheld, callsWord_payer []⟩).2
  rw [← length_symbolHops_eq_iff, htwice, hone.1] at hiff
  rw [honce, hone.2] at hiff₁
  refine ⟨?_, ?_, ?_, fun hright => ?_, ?_⟩
  · rw [impactAnalysis_of_caller hcaller, htwice]
    rfl
  · rw [htwice, hone.1]
  · rw [htwice]
    rfl
  · rw [htwice] at hright
    exact absurd (hiff.1 hright).2 (by decide)
  · rw [honce]
    exact hiff₁.2 ⟨pairwise_singleton _ _, payer, .direct hheld (callsWord_payer []),
      fun j hj => hj.pos⟩

end CodeAtlas.Report
