import Mathlib.Data.List.Nodup
import Mathlib.Data.Nat.Find
import CodeAtlas.Graph.Reach
import CodeAtlas.Proofs.CallSites

/-!
# Chains of calls

A walk to the callers of callers goes round by round. A round looks for words in the texts of all
calls, and what it finds that is not known yet gives the words of the next round. Here is what such
a walk is to find, said without it.

* **`CallGoal.Chain`**, **`CallGoal.Distance`** — the chains of calls that lead from a node down to
  a word, and the length of the shortest one.
-/

namespace CodeAtlas

open List

/-- A node is the one that the index holds under its identifier. -/
def Held (nodes : List Node) (n : Node) : Prop :=
  nodeWithId? nodes n.id = some n

instance (nodes : List Node) (n : Node) : Decidable (Held nodes n) :=
  inferInstanceAs (Decidable (_ = _))

theorem nodeWithId?_eq_some_iff {nodes : List Node} {id : String} {n : Node} :
    nodeWithId? nodes id = some n ↔ n.id = id ∧ Held nodes n := by
  constructor
  · intro h
    have hid := id_of_nodeWithId? h
    refine ⟨hid, ?_⟩
    rw [Held, hid, h]
  · rintro ⟨rfl, hheld⟩
    exact hheld

theorem Held.eq {nodes : List Node} {m n : Node} (hm : Held nodes m) (hn : Held nodes n)
    (hid : m.id = n.id) : m = n := by
  unfold Held at hm hn
  rw [hid, hn] at hm
  exact (Option.some.inj hm).symm

theorem Held.mem {nodes : List Node} {n : Node} (hn : Held nodes n) : n ∈ nodes :=
  mem_reverse.1 (mem_of_find?_eq_some hn)

theorem held_of_nodup {nodes : List Node} {n : Node} (hids : (nodes.map (·.id)).Nodup)
    (hn : n ∈ nodes) : Held nodes n := by
  obtain ⟨m, hm⟩ := exists_nodeWithId? hn
  obtain ⟨hid, hheld⟩ := nodeWithId?_eq_some_iff.1 hm
  rwa [← inj_on_of_nodup_map hids hheld.mem hn hid]

/-- A call that comes from a node has a word in its text. -/
def CallsWord (calls : List Edge) (n : Node) (word : String) : Prop :=
  ∃ e ∈ calls, e.source = n.id ∧ Text.containsWord word e.context = true

/-! ## Chains and distances

Distances are lengths of shortest chains. Behind the first call of one stands another one. -/

/-- What chains of calls lead to: a word in the text of a call. -/
structure CallGoal where
  /-- The nodes that a chain goes through. -/
  through : Node → Prop
  /-- The word by which calls mention a node. -/
  wordFor : Node → String
  calls : List Edge
  /-- The word that chains lead to. -/
  word : String

namespace CallGoal

/-- A chain of calls from a node down to the goal, of a given length. -/
inductive Chain (g : CallGoal) : Nat → Node → Prop where
  | direct {n : Node} (hn : g.through n) (hcall : CallsWord g.calls n g.word) : Chain g 1 n
  | step {k : Nat} {m n : Node} (hn : g.through n) (hcall : CallsWord g.calls n (g.wordFor m))
    (hrest : Chain g k m) :
      Chain g (k + 1) n

def Distance (g : CallGoal) (k : Nat) (n : Node) : Prop :=
  g.Chain k n ∧ ∀ j, g.Chain j n → k ≤ j

/-- The words to look for on the way from one distance to the next. -/
def Wanted (g : CallGoal) : Nat → String → Prop
  | 0, w => w = g.word
  | k + 1, w => ∃ m, g.Distance (k + 1) m ∧ g.wordFor m = w

variable {g : CallGoal} {j k : Nat} {m n : Node}

theorem Chain.pos (h : g.Chain k n) : 0 < k := by
  cases h with
  | direct => exact Nat.one_pos
  | step => exact Nat.succ_pos _

theorem Chain.through (h : g.Chain k n) : g.through n := by
  cases h with
  | direct hn => exact hn
  | step hn => exact hn

theorem Distance.through (h : g.Distance k n) : g.through n :=
  h.1.through

theorem Distance.unique (hj : g.Distance j n) (hk : g.Distance k n) : j = k :=
  Nat.le_antisymm (hj.2 k hk.1) (hk.2 j hj.1)

theorem Chain.exists_distance (h : g.Chain k n) : ∃ j, j ≤ k ∧ g.Distance j n := by
  classical
  have hex : ∃ j, g.Chain j n := ⟨k, h⟩
  exact ⟨Nat.find hex, Nat.find_min' hex h, Nat.find_spec hex, fun _ hj => Nat.find_min' hex hj⟩

theorem exists_chain_le_iff : (∃ j, j ≤ k ∧ g.Chain j n) ↔ ∃ j, j ≤ k ∧ g.Distance j n := by
  constructor
  · rintro ⟨j, hj, hchain⟩
    obtain ⟨i, hi, hdistance⟩ := hchain.exists_distance
    exact ⟨i, Nat.le_trans hi hj, hdistance⟩
  · rintro ⟨j, hj, hdistance⟩
    exact ⟨j, hj, hdistance.1⟩

/-- Behind the first call of a shortest chain stands a shortest chain, so its word is wanted. -/
theorem Distance.exists_wanted (h : g.Distance (k + 1) n) :
    ∃ w, g.Wanted k w ∧ CallsWord g.calls n w := by
  obtain ⟨hchain, hleast⟩ := h
  cases hchain with
  | direct _ hcall => exact ⟨g.word, rfl, hcall⟩
  | step hn hcall hrest =>
    rename_i m
    -- a shorter chain from there would make the whole chain shorter
    have hdistance : g.Distance k m := by
      refine ⟨hrest, fun j hj => ?_⟩
      have hlonger := hleast (j + 1) (.step hn hcall hj)
      omega
    cases k with
    | zero => exact absurd hrest.pos (Nat.lt_irrefl 0)
    | succ k => exact ⟨g.wordFor m, ⟨m, hdistance, rfl⟩, hcall⟩

theorem Wanted.chain {w : String} (hw : g.Wanted k w) (hn : g.through n)
    (hcall : CallsWord g.calls n w) : g.Chain (k + 1) n := by
  cases k with
  | zero => exact .direct hn (hw ▸ hcall)
  | succ k =>
    obtain ⟨m, hm, rfl⟩ := hw
    exact .step hn hcall hm.1

/-- A node at the next distance has a call with a wanted word and was not met before. -/
theorem distance_succ_iff : g.Distance (k + 1) n ↔
    g.through n ∧ (∃ w, g.Wanted k w ∧ CallsWord g.calls n w) ∧ ∀ j, j ≤ k → ¬ g.Distance j n := by
  constructor
  · intro h
    refine ⟨h.through, h.exists_wanted, fun j hj hnearer => ?_⟩
    have heq := hnearer.unique h
    omega
  · rintro ⟨hn, ⟨w, hw, hcall⟩, hfar⟩
    refine ⟨hw.chain hn hcall, fun j hj => ?_⟩
    obtain ⟨i, hi, hdistance⟩ := hj.exists_distance
    by_contra hlt
    exact hfar i (by omega) hdistance

end CallGoal

/-! ## Rounds

One round of a walk leads from the nodes at one distance to those at the next. -/

/-- What a walk knows before a round: the words to look for from one distance on, and the
identifiers of the nodes that chains do not go through or that are not further away. -/
structure Front (g : CallGoal) (nodes : List Node) (k : Nat) (words known : List String) :
    Prop where
  held : ∀ n, g.through n → Held nodes n
  mem_words_iff : ∀ w, w ∈ words ↔ g.Wanted k w
  mem_known_iff : ∀ n, Held nodes n → (n.id ∈ known ↔ ¬ g.through n ∨ ∃ j, j ≤ k ∧ g.Distance j n)

namespace Front

variable {g : CallGoal} {nodes : List Node} {k : Nat} {words known : List String} {n : Node}

theorem fresh_iff (h : Front g nodes k words known) :
    (Held nodes n ∧ n.id ∉ known ∧ ∃ w, w ∈ words ∧ CallsWord g.calls n w) ↔ g.Distance
      (k + 1) n := by
  rw [CallGoal.distance_succ_iff]
  constructor
  · rintro ⟨hheld, hnew, w, hw, hcall⟩
    rw [h.mem_known_iff n hheld, not_or, not_not] at hnew
    exact ⟨hnew.1, ⟨w, (h.mem_words_iff w).1 hw, hcall⟩,
      fun j hj hnearer => hnew.2 ⟨j, hj, hnearer⟩⟩
  · rintro ⟨hn, ⟨w, hw, hcall⟩, hfar⟩
    have hheld := h.held n hn
    refine ⟨hheld, ?_, w, (h.mem_words_iff w).2 hw, hcall⟩
    rw [h.mem_known_iff n hheld, not_or, not_not]
    refine ⟨hn, ?_⟩
    rintro ⟨j, hj, hnearer⟩
    exact hfar j hj hnearer

/-- The step: what a round finds is the front of the next one. -/
theorem next (h : Front g nodes k words known) {found : List Node} {more : List String}
    (hfound : ∀ n, n ∈ found ↔ g.Distance (k + 1) n) (hmore : ∀ w, w ∈ more ↔ ∃ n ∈ found,
      g.wordFor n = w) :
    Front g nodes (k + 1) more (known ++ found.map (·.id)) where
  held := h.held
  mem_words_iff w := by
    simp only [hmore, hfound]
    exact Iff.rfl
  mem_known_iff n hheld := by
    -- identifiers stand for nodes here, since all that is found is held
    have hid : n.id ∈ found.map (·.id) ↔ g.Distance (k + 1) n := by
      rw [mem_map]
      constructor
      · rintro ⟨m, hm, hid⟩
        have hdistance := (hfound m).1 hm
        rwa [← (h.held m hdistance.through).eq hheld hid]
      · intro hdistance
        exact ⟨n, (hfound n).2 hdistance, rfl⟩
    rw [mem_append, h.mem_known_iff n hheld, hid, or_assoc]
    refine or_congr_right ⟨?_, ?_⟩
    · rintro (⟨j, hj, hdistance⟩ | hdistance)
      · exact ⟨j, by omega, hdistance⟩
      · exact ⟨k + 1, Nat.le_refl _, hdistance⟩
    · rintro ⟨j, hj, hdistance⟩
      rcases Nat.lt_or_eq_of_le hj with hlt | rfl
      · exact .inl ⟨j, by omega, hdistance⟩
      · exact .inr hdistance

end Front

section Rounds

variable {nodes : List Node} {words known : List String} {calls : List Edge} {n : Node}

theorem callerThrough?_eq_some_iff {e : Edge} : callerThrough? nodes words e = some n ↔
    Held nodes n ∧ e.source = n.id ∧ ∃ w, w ∈ words ∧ Text.containsWord w e.context := by
  rw [callerThrough?]
  by_cases hword : (words.any fun w => Text.containsWord w e.context)
  · rw [if_pos hword, nodeWithId?_eq_some_iff]
    simp only [any_eq_true] at hword
    simp only [hword, and_true]
    rw [and_comm, eq_comm]
  · rw [if_neg hword]
    simp only [any_eq_true] at hword
    simp [hword]

theorem exists_callerThrough?_iff : (∃ e ∈ calls, callerThrough? nodes words e = some n) ↔
    Held nodes n ∧ ∃ w, w ∈ words ∧ CallsWord calls n w := by
  simp only [callerThrough?_eq_some_iff, CallsWord]
  constructor
  · rintro ⟨e, he, hheld, hsource, w, hw, hword⟩
    exact ⟨hheld, w, hw, e, he, hsource, hword⟩
  · rintro ⟨hheld, w, hw, e, he, hsource, hword⟩
    exact ⟨e, he, hheld, hsource, w, hw, hword⟩

theorem newCallers_concat_of_none {e : Edge} (h : callerThrough? nodes words e = none) :
    newCallers nodes words known (calls ++ [e]) = newCallers nodes words known calls := by
  rw [newCallers, foldl_append, foldl_cons, foldl_nil, h]
  rfl

theorem newCallers_concat_of_some {e : Edge} (h : callerThrough? nodes words e = some n) :
    newCallers nodes words known (calls ++ [e]) =
      if n.id ∈ known ∨ n.id ∈ (newCallers nodes words known calls).map
        (·.id) then newCallers nodes words known calls
      else newCallers nodes words known calls ++ [n] := by
  rw [newCallers, foldl_append, foldl_cons, foldl_nil, h]
  simp [newCallers]

theorem mem_newCallers_iff_exists : n ∈ newCallers nodes words known calls ↔
    n.id ∉ known ∧ ∃ e ∈ calls, callerThrough? nodes words e = some n := by
  induction calls using List.reverseRecOn generalizing n with
  | nil => simp [newCallers]
  | append_singleton calls e ih =>
    simp only [mem_append, mem_singleton, or_and_right, exists_or, exists_eq_left, and_or_left]
    rw [← ih]
    cases hcaller : callerThrough? nodes words e with
    | none =>
      rw [newCallers_concat_of_none hcaller]
      simp
    | some m =>
      rw [newCallers_concat_of_some hcaller, Option.some_inj]
      split
      · next hold =>
        refine ⟨.inl, ?_⟩
        rintro (hn | ⟨hnew, rfl⟩)
        · exact hn
        · -- found before under its identifier, and so the node itself
          obtain ⟨x, hx, hid⟩ := mem_map.1 (hold.resolve_left hnew)
          obtain ⟨-, e', -, hx'⟩ := ih.1 hx
          have heq : x = m :=
            (callerThrough?_eq_some_iff.1 hx').1.eq (callerThrough?_eq_some_iff.1 hcaller).1 hid
          exact heq ▸ hx
      · next hnew =>
        rw [mem_append, mem_singleton, eq_comm (a := m)]
        refine or_congr_right ⟨?_, And.right⟩
        rintro rfl
        exact ⟨(not_or.1 hnew).1, rfl⟩

theorem mem_newCallers_iff : n ∈ newCallers nodes words known calls ↔
    Held nodes n ∧ n.id ∉ known ∧ ∃ w, w ∈ words ∧ CallsWord calls n w := by
  rw [mem_newCallers_iff_exists, exists_callerThrough?_iff, and_left_comm]

theorem nodup_newCallers : ((newCallers nodes words known calls).map (·.id)).Nodup := by
  induction calls using List.reverseRecOn with
  | nil => exact nodup_nil
  | append_singleton calls e ih =>
    cases hcaller : callerThrough? nodes words e with
    | none => rwa [newCallers_concat_of_none hcaller]
    | some n =>
      rw [newCallers_concat_of_some hcaller]
      split
      · exact ih
      · next hnew =>
        rw [map_append, map_singleton, ← concat_eq_append]
        exact ih.concat (not_or.1 hnew).2

theorem newCallers_nil (calls : List Edge) : newCallers nodes [] known calls = [] := by
  refine eq_nil_iff_forall_not_mem.2 fun n hn => ?_
  obtain ⟨-, -, w, hw, -⟩ := mem_newCallers_iff.1 hn
  exact not_mem_nil hw

variable {wordFor : Node → String}

theorem callersWithin_nil (rounds : Nat) :
    callersWithin wordFor nodes calls rounds [] known = [] := by
  cases rounds with
  | zero => rfl
  | succ rounds => rw [callersWithin, newCallers_nil]

/-- A walk is its first round and the walk from there; after a round without a result there is
nothing to look for. -/
theorem callersWithin_succ (rounds : Nat) :
    callersWithin wordFor nodes calls (rounds + 1) words known =
    newCallers nodes words known calls ++
      callersWithin wordFor nodes calls rounds ((newCallers nodes words known calls).map wordFor)
        (known ++ (newCallers nodes words known calls).map (·.id)) := by
  rw [callersWithin]
  split
  · next hnone => rw [hnone, map_nil, callersWithin_nil, append_nil]
  · rfl

/-- The callers within some rounds are the nodes within that distance, for any graph of calls, with
cycles or without. -/
theorem mem_callersWithin_iff {g : CallGoal} {k : Nat} (h : Front g nodes k words known)
    (rounds : Nat) :
    n ∈ callersWithin g.wordFor nodes g.calls rounds words known ↔
      ∃ j, k < j ∧ j ≤ k + rounds ∧ g.Distance j n := by
  induction rounds generalizing k words known with
  | zero =>
    rw [callersWithin]
    refine iff_of_false not_mem_nil ?_
    rintro ⟨j, hlow, hhigh, -⟩
    omega
  | succ rounds ih =>
    -- one round takes the front a call further, and the rounds that are left start from there
    have hround (n : Node) : n ∈ newCallers nodes words known g.calls ↔ g.Distance (k + 1) n :=
      mem_newCallers_iff.trans h.fresh_iff
    rw [callersWithin_succ, mem_append, hround, ih (h.next hround fun w => mem_map)]
    constructor
    · rintro (hdistance | ⟨j, hlow, hhigh, hdistance⟩)
      · exact ⟨k + 1, by omega, by omega, hdistance⟩
      · exact ⟨j, by omega, by omega, hdistance⟩
    · rintro ⟨j, hlow, hhigh, hdistance⟩
      rcases Nat.lt_or_eq_of_le (Nat.succ_le_of_lt hlow) with hlater | rfl
      · exact .inr ⟨j, hlater, by omega, hdistance⟩
      · exact .inl hdistance

theorem nodup_callersWithin (rounds : Nat) :
    ((callersWithin wordFor nodes calls rounds words known).map (·.id)).Nodup ∧
      ∀ n ∈ callersWithin wordFor nodes calls rounds words known, n.id ∉ known := by
  induction rounds generalizing words known with
  | zero => exact ⟨nodup_nil, fun n hn => absurd hn not_mem_nil⟩
  | succ rounds ih =>
    rw [callersWithin_succ]
    obtain ⟨hnodup, hnew⟩ := @ih ((newCallers nodes words known calls).map wordFor)
      (known ++ (newCallers nodes words known calls).map (·.id))
    constructor
    · rw [map_append, nodup_append]
      refine ⟨nodup_newCallers, hnodup, ?_⟩
      rintro id hid _ hlater rfl
      obtain ⟨m, hm, rfl⟩ := mem_map.1 hlater
      exact hnew m hm (mem_append_right known hid)
    · intro n hn hknown
      rcases mem_append.1 hn with hn | hn
      · exact (mem_newCallers_iff.1 hn).2.1 hknown
      · exact hnew n hn (mem_append_left _ hknown)

theorem callersWithin_prefix {rounds more : Nat} (h : rounds ≤ more) :
    callersWithin wordFor nodes calls rounds words known <+: callersWithin wordFor nodes calls more
      words known := by
  induction rounds generalizing more words known with
  | zero => exact nil_prefix
  | succ rounds ih =>
    obtain ⟨more, rfl⟩ := Nat.exists_eq_add_of_le' (Nat.le_trans (Nat.le_add_left 1 rounds) h)
    rw [callersWithin_succ, callersWithin_succ, prefix_append_right_inj]
    exact ih (by omega)

end Rounds

end CodeAtlas
