import CodeAtlas.Proofs.BareNames
import CodeAtlas.Proofs.CallChains
import CodeAtlas.Proofs.Leading

/-!
# Callers hop by hop

The walk from a symbol to its callers looks for names. It forgets which nodes the names stand for,
several nodes may share one, and what it has reached is only looked up between hops. Still each hop
is the set of nodes at one distance.
-/

namespace CodeAtlas.Report

open List

variable {nodes : List Node} {edges calls : List Edge} {names reached : List String} {name : String}
  {n : Node}

/-- What chains of calls down to a symbol are made of. Calls mention a node by its bare name. -/
def symbolGoal (nodes : List Node) (edges : List Edge) (name : String) : CallGoal where
  through := Held nodes
  wordFor m := bareName m.name
  calls := callEdgesOf edges
  word := bareName name

/-- What one hop finds depends on the bare names only. -/
theorem map_fst_callersOf :
    (callersOf nodes calls names reached).map (·.1) = calls.filterMap fun e =>
    (callerThrough? nodes (names.map bareName) e).filter fun n => !reached.contains n.id := by
  rw [callersOf, map_filterMap]
  refine congrArg (calls.filterMap ·) (funext fun e => ?_)
  rw [callerThrough?, any_map]
  cases hfind : names.find? fun name => Text.containsWord (bareName name) e.context with
  | none =>
    have hnone : (names.any ((fun w => Text.containsWord w e.context) ∘ bareName)) = false := by
      simpa using hfind
    rw [hnone]
    rfl
  | some via =>
    have hsome : (names.any ((fun w => Text.containsWord w e.context) ∘ bareName)) :=
      any_eq_true.2 ⟨via, mem_of_find?_eq_some hfind, find?_some hfind⟩
    rw [hsome, if_pos rfl, Option.bind_some, Option.map_map]
    exact congrFun Option.map_id _

theorem mem_map_fst_callersOf_iff : n ∈ (callersOf nodes calls names reached).map (·.1) ↔
    Held nodes n ∧ n.id ∉ reached ∧ ∃ w, w ∈ names.map bareName ∧ CallsWord calls n w := by
  rw [map_fst_callersOf, mem_filterMap, and_left_comm, ← exists_callerThrough?_iff]
  simp only [Option.filter_eq_some_iff, Bool.not_eq_true', contains_eq_mem, decide_eq_false_iff_not]
  constructor
  · rintro ⟨e, he, hcaller, hnew⟩
    exact ⟨hnew, e, he, hcaller⟩
  · rintro ⟨hnew, e, he, hcaller⟩
    exact ⟨e, he, hcaller, hnew⟩

theorem map_fst_byFile_perm (hop : Hop) : ((byFile hop).map (·.1)).Perm (hop.map (·.1)) :=
  (mergeSort_perm hop _).map _

theorem map_fst_byFile_congr {hop hop' : Hop} (h : hop.map (·.1) = hop'.map (·.1)) :
    (byFile hop).map (·.1) = (byFile hop').map (·.1) := by
  have hsort (hop : Hop) : (byFile hop).map (·.1) = (hop.map (·.1)).mergeSort fun a b =>
      !(b.loc.file < a.loc.file) :=
    map_mergeSort fun _ _ _ _ => rfl
  rw [hsort, hsort, h]

/-! ## All hops

A walk is unrolled hop by hop, so that what it lists can be asked for by the number of the hop. -/

/-- What the next hop finds, in the order of files. -/
def nextHop (nodes : List Node) (calls : List Edge) (names reached : List String) : Hop :=
  byFile (callersOf nodes calls names reached)

def nextNames (hop : Hop) : List String :=
  distinct (hop.map (·.1.name))

theorem callersOf_nil : callersOf nodes calls [] reached = [] := by
  simp [callersOf]

theorem callerHops_eq_nil (depth : Nat) (h : callersOf nodes calls names reached = []) :
    callerHops nodes calls depth names reached = [] := by
  cases depth with
  | zero => rfl
  | succ depth => rw [callerHops, h]

/-- A walk is its next hop, if that finds anything, and the walk from there. After a hop without a
result there is nothing to look for. -/
theorem callerHops_succ (depth : Nat) : callerHops nodes calls (depth + 1) names reached =
    [nextHop nodes calls names reached].filter (!·.isEmpty) ++
      callerHops nodes calls depth (nextNames (nextHop nodes calls names reached))
        (reached ++ (nextHop nodes calls names reached).map (·.1.id)) := by
  rw [callerHops]
  split
  · next hnone =>
    have hhop : nextHop nodes calls names reached = [] := by simp [nextHop, hnone, byFile]
    rw [hhop, nextNames, map_nil]
    exact (callerHops_eq_nil depth callersOf_nil).symm
  · next hsome =>
    have hhop : (nextHop nodes calls names reached).isEmpty = false := by
      rw [isEmpty_eq_false_iff, nextHop, byFile, ← length_pos_iff, length_mergeSort]
      exact length_pos_iff.2 hsome
    rw [filter_cons_of_pos (by simp [hhop]), filter_nil]
    rfl

def listedAt (hops : List Hop) : Nat → List Node
  | 0 => []
  | k + 1 => (hops[k]?.getD []).map (·.1)

theorem listedAt_callerHops_one (depth : Nat) :
    listedAt (callerHops nodes calls (depth + 1) names reached) 1 =
    (nextHop nodes calls names reached).map (·.1) := by
  rw [callerHops_succ]
  cases nextHop nodes calls names reached with
  | nil =>
    show listedAt (callerHops nodes calls depth [] _) 1 = []
    rw [callerHops_eq_nil depth callersOf_nil]
    rfl
  | cons site hop => rfl

theorem listedAt_callerHops_succ (depth k : Nat) :
    listedAt (callerHops nodes calls (depth + 1) names reached) (k + 2) =
      listedAt (callerHops nodes calls depth (nextNames (nextHop nodes calls names reached))
        (reached ++ (nextHop nodes calls names reached).map (·.1.id))) (k + 1) := by
  rw [callerHops_succ]
  cases nextHop nodes calls names reached with
  | nil =>
    show listedAt (callerHops nodes calls depth [] _) (k + 2) =
        listedAt (callerHops nodes calls depth [] _) (k + 1)
    rw [callerHops_eq_nil depth callersOf_nil]
    rfl
  | cons site hop => rfl

theorem front_symbolGoal :
    Front (symbolGoal nodes edges name) nodes 0 ([name].map bareName) [] where
  held _ hn := hn
  mem_words_iff _ := mem_singleton
  mem_known_iff n hheld := by
    refine iff_of_false not_mem_nil ?_
    rintro (hout | ⟨j, hj, hdistance⟩)
    · exact hout hheld
    · exact absurd hdistance.1.pos (by omega)

section Front

variable {k : Nat} (h : Front (symbolGoal nodes edges name) nodes k (names.map bareName) reached)

include h

theorem mem_nextHop_iff (n : Node) :
    n ∈ (nextHop nodes (callEdgesOf edges) names reached).map (·.1) ↔
      (symbolGoal nodes edges name).Distance (k + 1) n := by
  rw [nextHop, (map_fst_byFile_perm _).mem_iff, mem_map_fst_callersOf_iff]
  exact h.fresh_iff

/-- The step: the nodes of a hop are those at the next distance. -/
theorem front_nextHop :
    Front (symbolGoal nodes edges name) nodes (k + 1)
      ((nextNames (nextHop nodes (callEdgesOf edges) names reached)).map bareName)
      (reached ++ (nextHop nodes (callEdgesOf edges) names reached).map (·.1.id)) := by
  have hmore (w : String) :
      w ∈ (nextNames (nextHop nodes (callEdgesOf edges) names reached)).map bareName ↔
      ∃ n ∈ (nextHop nodes (callEdgesOf edges) names reached).map (·.1), bareName n.name = w := by
    simp [nextNames, mem_distinct]
  have hnext := h.next (mem_nextHop_iff h) hmore
  rwa [map_map] at hnext

/-- A hop lists the nodes at its distance. By induction on the hops, with `Front` as the invariant.
-/
theorem mem_listedAt_callerHops_iff (depth i : Nat) :
    n ∈ listedAt (callerHops nodes (callEdgesOf edges) depth names reached) (i + 1) ↔
      i < depth ∧ (symbolGoal nodes edges name).Distance (k + i + 1) n := by
  induction depth generalizing i k names reached with
  | zero => simp [callerHops, listedAt]
  | succ depth ih =>
    cases i with
    | zero =>
      rw [listedAt_callerHops_one, mem_nextHop_iff h]
      simp
    | succ i =>
      rw [listedAt_callerHops_succ, ih (front_nextHop h), Nat.succ_lt_succ_iff,
        Nat.add_right_comm k 1 i]
      rfl

end Front

/-- Names with the same bare names lead to the same nodes. Only the first hop shows which names were
looked for. -/
theorem listedAt_callerHops_congr {names' : List String}
    (h : names.map bareName = names'.map bareName)
    (depth k : Nat) : listedAt (callerHops nodes calls depth names reached) k =
      listedAt (callerHops nodes calls depth names' reached) k := by
  have hhop : (nextHop nodes calls names reached).map (·.1) =
      (nextHop nodes calls names' reached).map (·.1) := by
    refine map_fst_byFile_congr ?_
    rw [map_fst_callersOf, map_fst_callersOf, h]
  have hnames : nextNames (nextHop nodes calls names reached) =
      nextNames (nextHop nodes calls names' reached) := by
    have hmap := congrArg (List.map Node.name) hhop
    rw [map_map, map_map] at hmap
    exact congrArg distinct hmap
  have hids : (nextHop nodes calls names reached).map (·.1.id) =
      (nextHop nodes calls names' reached).map (·.1.id) := by
    have hmap := congrArg (List.map Node.id) hhop
    rwa [map_map, map_map] at hmap
  -- behind the first hop both walks look for the same names
  cases depth with
  | zero => rfl
  | succ depth =>
    rcases k with _ | _ | k
    · rfl
    · rw [listedAt_callerHops_one, listedAt_callerHops_one, hhop]
    · rw [listedAt_callerHops_succ, listedAt_callerHops_succ, hnames, hids]

def symbolHops (nodes : List Node) (edges : List Edge) (name : String) (depth : Int) : List Hop :=
  callerHops nodes (callEdgesOf edges) (clampDepth depth) [name] []

def callersText (nodes : List Node) (name : String) (hops : List Hop) (closing : String) : String :=
  Text.join "\n" (("=== Callers of '" ++ name ++ "' (what breaks if it changes) ===") ::
    (hopLines (callerLines nodes) hops ++ [closing]))

theorem impactAnalysis_callers (nodes : List Node) (edges : List Edge) (name : String)
    (depth : Int) :
    impactAnalysis nodes edges name depth "callers" = callersText nodes name
      (symbolHops nodes edges name depth)
      (if (symbolHops nodes edges name depth).isEmpty then "  No callers found for '" ++ name ++
        "'."
        else "\nTotal callers found: " ++ toString
          (reachedCount (symbolHops nodes edges name depth)) ++ " across " ++
          toString (lastHop (clampDepth depth) (symbolHops nodes edges name depth)) ++
            " hop(s).") := by
  have hcallers : ("callers" == "callers" || "callers" == "both") := by decide
  have hcallees : ¬ ("callers" == "callees" || "callers" == "both") := by decide
  simp only [impactAnalysis]
  rw [if_pos hcallers, if_neg hcallees, append_nil]
  rfl

theorem mem_listedAt_symbolHops_iff {depth : Int} :
    n ∈ listedAt (symbolHops nodes edges name depth) k ↔
    k ≤ clampDepth depth ∧ (symbolGoal nodes edges name).Distance k n := by
  cases k with
  | zero =>
    refine iff_of_false not_mem_nil ?_
    rintro ⟨-, hdistance⟩
    exact absurd hdistance.1.pos (Nat.lt_irrefl 0)
  | succ k =>
    rw [symbolHops, mem_listedAt_callerHops_iff front_symbolGoal, Nat.zero_add]
    exact Iff.rfl

end CodeAtlas.Report
