import Mathlib.Algebra.Order.Field.Rat
import Mathlib.Data.List.Perm.Subperm
import Mathlib.Order.Fin.Basic
import Mathlib.Tactic.Linarith
import CodeAtlas.Proofs.WillingStore

/-!
# Choosing greedily

A search for different symbols fetches a pool of hits and chooses from it, one hit after the other.
In exact arithmetic each choice is the best one that is left, and the earliest of the best.
-/

namespace CodeAtlas.Vector

open List

variable {α β R : Type}

section Measure

variable [LinearOrder R]

theorem isGreatest_greatest (x : R) (xs : List R) :
    IsGreatest {y | y ∈ x :: xs} (greatest x xs) := by
  induction xs generalizing x with
  | nil => simp [greatest, isGreatest_singleton]
  | cons y xs ih =>
    -- the fold goes on with the greater of its first two numbers
    have hstep : greatest x (y :: xs) = greatest (max x y) xs := by
      show greatest (if x < y then y else x) xs = greatest (max x y) xs
      rw [max_def_lt]
    rw [hstep]
    obtain ⟨hmem, hupper⟩ := ih (max x y)
    have hmax : max x y ≤ greatest (max x y) xs := hupper mem_cons_self
    constructor
    · rcases mem_cons.1 hmem with hmem | hmem
      · rw [hmem]
        rcases max_choice x y with h | h
        · rw [h]
          exact mem_cons_self
        · rw [h]
          exact mem_cons_of_mem x mem_cons_self
      · exact mem_cons_of_mem x (mem_cons_of_mem y hmem)
    · intro z hz
      rcases mem_cons.1 hz with rfl | hz
      · exact (le_max_left z y).trans hmax
      · rcases mem_cons.1 hz with rfl | hz
        · exact (le_max_right x z).trans hmax
        · exact hupper (mem_cons_of_mem _ hz)

variable [Ring R]

/-- What an element is worth beside those that were chosen: its relevance while there are none, and
then its weighed relevance less the weighed likeness to the one that it is most like. -/
inductive Worth (relevance : α → R) (likeness : α → α → R) (weight : R) :
    List α → α → R → Prop where
  | alone (x : α) : Worth relevance likeness weight [] x (relevance x)
  | beside {chosen : List α} {x : α} {most : R} (hmost :
    IsGreatest {l | ∃ c ∈ chosen, likeness c x = l} most) :
      Worth relevance likeness weight chosen x (weight * relevance x - (1 - weight) * most)

/-- `i` is the earliest of the places that are not taken whose element is worth most. -/
def EarliestBest (relevance : α → R) (likeness : α → α → R) (weight : R) (pool : List α)
    (taken : List (Fin pool.length)) (i : Fin pool.length) : Prop :=
  i ∉ taken ∧ ∃ best, Worth relevance likeness weight (taken.map pool.get) (pool.get i) best ∧
    ∀ j ∉ taken, ∃ value, Worth relevance likeness weight (taken.map pool.get) (pool.get j) value ∧
      value ≤ best ∧ (value = best → i ≤ j)

theorem worth_score {w : Weighing α R} (hw : w.counterweight = 1 - w.weight) (chosen : List α)
    (x : α) : Worth w.relevance w.likeness w.weight chosen x (w.score chosen x) := by
  cases chosen with
  | nil => exact .alone x
  | cons c cs =>
    have hgreatest := isGreatest_greatest (w.likeness c x) (cs.map (w.likeness · x))
    have hset : {l | l ∈ w.likeness c x :: cs.map (w.likeness · x)} =
        {l | ∃ d ∈ c :: cs, w.likeness d x = l} := by
      ext l
      show l ∈ (c :: cs).map (w.likeness · x) ↔ ∃ d ∈ c :: cs, w.likeness d x = l
      exact mem_map
    rw [hset] at hgreatest
    rw [Weighing.score, hw]
    exact .beside hgreatest

end Measure

section TakeBest

theorem takeBest?_map [LT R] [DecidableLT R] (f : β → α) (score : α → R) (pool : List β) :
    takeBest? score (pool.map f) = (takeBest? (fun x => score (f x)) pool).map fun t =>
      (f t.1, t.2.map f) := by
  induction pool with
  | nil => rfl
  | cons x pool ih =>
    rw [map_cons, takeBest?, takeBest?, ih]
    cases takeBest? (fun x => score (f x)) pool with
    | none => rfl
    | some t =>
      show (if score (f x) < score (f t.1) then some (f t.1, f x :: t.2.map f)
          else some (f x, pool.map f)) =
        Option.map _ (if score (f x) < score (f t.1) then some (t.1, x :: t.2) else some (x, pool))
      by_cases hless : score (f x) < score (f t.1)
      · rw [if_pos hless, if_pos hless]
        rfl
      · rw [if_neg hless, if_neg hless]
        rfl

variable [LinearOrder R] {score : α → R} {pool rest : List α} {x : α}

theorem takeBest?_eq_none_iff : takeBest? score pool = none ↔ pool = [] := by
  cases pool with
  | nil => simp [takeBest?]
  | cons y pool =>
    rw [takeBest?]
    cases takeBest? score pool with
    | none => simp
    | some t =>
      by_cases hless : score y < score t.1
      · simp [hless]
      · simp [hless]

/-- One step: what is taken scores more than all before it and no less than all behind it. -/
theorem exists_of_takeBest? (h : takeBest? score pool = some (x, rest)) :
    ∃ front back, pool = front ++ x :: back ∧ rest = front ++ back ∧
      (∀ y ∈ front, score y < score x) ∧ ∀ y ∈ back, score y ≤ score x := by
  induction pool generalizing x rest with
  | nil => cases h
  | cons y pool ih =>
    rw [takeBest?] at h
    cases hbest : takeBest? score pool with
    | none =>
      rw [hbest] at h
      cases h
      exact ⟨[], [], by simp [takeBest?_eq_none_iff.1 hbest]⟩
    | some t =>
      rw [hbest] at h
      obtain ⟨front, back, hpool, hrest, hfront, hback⟩ := ih hbest
      by_cases hless : score y < score t.1
      · -- the best of the others beats the first element, which joins those before it
        have heq := h.symm.trans (if_pos hless)
        cases heq
        refine ⟨y :: front, back, by rw [hpool]; rfl, by rw [hrest]; rfl, ?_, hback⟩
        intro z hz
        rcases mem_cons.1 hz with rfl | hz
        · exact hless
        · exact hfront z hz
      · have heq := h.symm.trans (if_neg hless)
        cases heq
        refine ⟨[], pool, rfl, rfl, by simp, ?_⟩
        intro z hz
        rw [hpool] at hz
        rcases mem_append.1 hz with hz | hz
        · exact (hfront z hz).le.trans (not_lt.1 hless)
        · rcases mem_cons.1 hz with rfl | hz
          · exact not_lt.1 hless
          · exact (hback z hz).trans (not_lt.1 hless)

theorem perm_of_takeBest? (h : takeBest? score pool = some (x, rest)) : pool.Perm (x :: rest) := by
  obtain ⟨front, back, rfl, rfl, -, -⟩ := exists_of_takeBest? h
  exact perm_middle

def falling (score : α → R) (a b : α) : Bool :=
  score b ≤ score a

theorem falling_trans (score : α → R) (a b c : α) (hab : falling score a b)
    (hbc : falling score b c) : falling score a c := by
  simp only [falling, decide_eq_true_eq] at hab hbc ⊢
  exact hbc.trans hab

theorem falling_total (score : α → R) (a b : α) : (falling score a b || falling score b a) := by
  simp only [falling, Bool.or_eq_true, decide_eq_true_eq]
  exact le_total _ _

theorem mergeSort_of_takeBest? (h : takeBest? score pool = some (x, rest)) :
    pool.mergeSort (falling score) = x :: rest.mergeSort (falling score) := by
  obtain ⟨front, back, rfl, rfl, hfront, hback⟩ := exists_of_takeBest? h
  clear h
  induction front with
  | nil =>
    have hall : ∀ y ∈ back.mergeSort (falling score), falling score x y := by
      intro y hy
      simpa [falling] using hback y (mem_mergeSort.1 hy)
    exact mergeSort_cons_eq (falling_trans score) (falling_total score) [] _ rfl (by simp) hall
  | cons y front ih =>
    have hrest := ih fun z hz => hfront z (mem_cons_of_mem y hz)
    obtain ⟨above, below, hcons, hothers, habove, hbelow⟩ :=
      exists_mergeSort_cons (falling_trans score) (falling_total score) y (front ++ back)
    have hless : falling score y x = false := by
      simpa [falling] using hfront y mem_cons_self
    rw [cons_append, cons_append, hcons]
    refine mergeSort_cons_eq (falling_trans score) (falling_total score) (x :: above) below ?_ ?_
      hbelow
    · rw [hrest, hothers]
      rfl
    · intro z hz
      rcases mem_cons.1 hz with rfl | hz
      · exact hless
      · exact habove z hz

/-- The places in `left` are those that are not taken, in order. -/
structure Open {n : Nat} (taken left : List (Fin n)) : Prop where
  inOrder : left.Pairwise (· < ·)
  mem_iff : ∀ i, i ∈ left ↔ i ∉ taken

theorem Open.take {n : Nat} {score : Fin n → R} {taken left rest : List (Fin n)} {i : Fin n}
    (h : Open taken left) (hbest : takeBest? score left = some (i, rest)) :
    (i ∉ taken ∧ ∀ j ∉ taken, score j ≤ score i ∧ (score j = score i → i ≤ j)) ∧ Open
      (taken ++ [i]) rest := by
  obtain ⟨front, back, rfl, rfl, hfront, hback⟩ := exists_of_takeBest? hbest
  have hmiddle : i ∈ front ++ i :: back := by simp
  obtain ⟨-, hback_lt, hfront_lt⟩ := pairwise_append.1 h.inOrder
  rw [pairwise_cons] at hback_lt
  have hnodup : (front ++ i :: back).Nodup := h.inOrder.imp fun hlt => hlt.ne
  refine ⟨⟨(h.mem_iff i).1 hmiddle, ?_⟩, ?_, ?_⟩
  · intro j hj
    rcases mem_append.1 ((h.mem_iff j).2 hj) with hj | hj
    · exact ⟨(hfront j hj).le, fun heq => absurd heq (hfront j hj).ne⟩
    · rcases mem_cons.1 hj with rfl | hj
      · exact ⟨le_rfl, fun _ => le_rfl⟩
      · exact ⟨hback j hj, fun _ => (hback_lt.1 j hj).le⟩
  · exact h.inOrder.sublist (List.Sublist.append_left (sublist_cons_self i back) front)
  · intro j
    have hleft := h.mem_iff j
    rw [nodup_middle, nodup_cons] at hnodup
    simp only [mem_append, mem_cons, not_mem_nil, or_false, not_or] at hleft hnodup ⊢
    constructor
    · intro hj
      refine ⟨hleft.1 (by tauto), ?_⟩
      rintro rfl
      tauto
    · intro hj
      have := hleft.2 hj.1
      tauto

end TakeBest

/-! ## A run of steps

A choice over the places of a pool is followed back to a choice over its elements. -/

section Along

variable [LT R] [DecidableLT R] [Mul R] [Sub R]

def Weighing.along (w : Weighing α R) (f : β → α) : Weighing β R :=
  ⟨fun x => w.relevance (f x), fun x y => w.likeness (f x) (f y), w.weight, w.counterweight⟩

theorem Weighing.score_map (w : Weighing α R) (f : β → α) (chosen : List β) (x : β) :
    w.score (chosen.map f) (f x) = (w.along f).score chosen x := by
  cases chosen with
  | nil => rfl
  | cons c cs =>
    show _ - _ * greatest _ ((cs.map f).map (w.likeness · (f x))) = _
    rw [map_map]
    rfl

theorem choose_map (w : Weighing α R) (f : β → α) (n : Nat) (chosen pool : List β) :
    choose w n (chosen.map f) (pool.map f) = (choose (w.along f) n chosen pool).map f := by
  induction n generalizing chosen pool with
  | zero => rfl
  | succ n ih =>
    have hbest : takeBest? (w.score (chosen.map f)) (pool.map f) =
        (takeBest? ((w.along f).score chosen) pool).map fun t => (f t.1, t.2.map f) := by
      rw [takeBest?_map]
      simp only [w.score_map]
    rw [choose, choose, hbest]
    cases takeBest? ((w.along f).score chosen) pool with
    | none => rfl
    | some t =>
      have hrest := ih (chosen ++ [t.1]) t.2
      rw [map_append] at hrest
      exact congrArg (f t.1 :: ·) hrest

end Along

section Choose

variable [Ring R] [LinearOrder R]

theorem choose_cases (w : Weighing α R) (n : Nat) (chosen pool : List α) :
    pool = [] ∧ choose w (n + 1) chosen pool = [] ∨
      ∃ x rest, takeBest? (w.score chosen) pool = some (x, rest) ∧
        choose w (n + 1) chosen pool = x :: choose w n (chosen ++ [x]) rest := by
  rw [choose]
  cases hbest : takeBest? (w.score chosen) pool with
  | none => exact .inl ⟨takeBest?_eq_none_iff.1 hbest, rfl⟩
  | some t => exact .inr ⟨t.1, t.2, rfl, rfl⟩

theorem length_choose (w : Weighing α R) (n : Nat) (chosen pool : List α) :
    (choose w n chosen pool).length = min n pool.length := by
  induction n generalizing chosen pool with
  | zero => simp [choose]
  | succ n ih =>
    rcases choose_cases w n chosen pool with ⟨rfl, hnil⟩ | ⟨x, rest, hbest, hcons⟩
    · simp [hnil]
    · have hlength := (perm_of_takeBest? hbest).length_eq
      rw [length_cons] at hlength
      rw [hcons, length_cons, ih]
      omega

theorem subperm_choose (w : Weighing α R) (n : Nat) (chosen pool : List α) :
    (choose w n chosen pool).Subperm pool := by
  induction n generalizing chosen pool with
  | zero => exact nil_subperm
  | succ n ih =>
    rcases choose_cases w n chosen pool with ⟨rfl, hnil⟩ | ⟨x, rest, hbest, hcons⟩
    · rw [hnil]
    · rw [hcons]
      exact ((subperm_cons x).2 (ih (chosen ++ [x]) rest)).trans
        (perm_of_takeBest? hbest).symm.subperm

/-- **All weight on relevance.** Taking the best one again and again is then a stable sort. -/
theorem choose_relevance {w : Weighing α R} (hone : w.weight = 1)
    (hw : w.counterweight = 1 - w.weight) (n : Nat) (chosen pool : List α) :
    choose w n chosen pool = (pool.mergeSort (falling w.relevance)).take n := by
  have hscore (chosen : List α) : w.score chosen = w.relevance := by
    funext x
    cases chosen with
    | nil => rfl
    | cons c cs => simp [Weighing.score, hw, hone]
  induction n generalizing chosen pool with
  | zero => rfl
  | succ n ih =>
    rcases choose_cases w n chosen pool with ⟨rfl, hnil⟩ | ⟨x, rest, hbest, hcons⟩
    · simp [hnil]
    · rw [hscore] at hbest
      rw [hcons, ih, mergeSort_of_takeBest? hbest, take_succ_cons]

/-- A run of steps: a choice over the places of a pool makes an `EarliestBest` step at every point.
-/
theorem Open.choose {n : Nat} {w : Weighing (Fin n) R} {limit : Nat}
    {taken left before after : List (Fin n)} {i : Fin n}
    (h : Open taken left) (hrun : choose w limit taken left = before ++ i :: after) :
    i ∉ taken ++ before ∧ ∀ j ∉ taken ++ before, w.score (taken ++ before) j ≤ w.score
      (taken ++ before) i ∧
      (w.score (taken ++ before) j = w.score (taken ++ before) i → i ≤ j) := by
  induction limit generalizing taken left before with
  | zero => simp [Vector.choose] at hrun
  | succ limit ih =>
    rcases choose_cases w limit taken left with ⟨-, hnil⟩ | ⟨x, rest, hbest, hcons⟩
    · rw [hnil] at hrun
      simp at hrun
    · rw [hcons] at hrun
      obtain ⟨htaken, hopen⟩ := h.take hbest
      cases before with
      | nil =>
        obtain ⟨rfl, -⟩ := List.cons.inj hrun
        simpa using htaken
      | cons y before =>
        -- the rest of the run starts with one more place taken
        obtain ⟨rfl, hrest⟩ := List.cons.inj hrun
        have hlater := ih hopen hrest
        simpa using hlater

theorem open_finRange (n : Nat) : Open [] (List.finRange n) :=
  ⟨pairwise_lt_finRange n, fun i => by simp⟩

/-- The run: each pick is the earliest best one beside those before it. -/
theorem exists_picks {w : Weighing α R} (hw : w.counterweight = 1 - w.weight) (limit : Nat)
    (pool : List α) :
    ∃ picks : List (Fin pool.length), choose w limit [] pool = picks.map pool.get ∧
      picks.length = min limit pool.length ∧ picks.Nodup ∧
      ∀ before i after, picks = before ++ i :: after →
        EarliestBest w.relevance w.likeness w.weight pool before i := by
  refine ⟨choose (w.along pool.get) limit [] (List.finRange pool.length), ?_, ?_, ?_, ?_⟩
  · rw [← choose_map, map_get_finRange, map_nil]
  · rw [length_choose, length_finRange]
  · obtain ⟨kept, hperm, hsub⟩ :=
      subperm_choose (w.along pool.get) limit [] (List.finRange pool.length)
    exact hperm.nodup_iff.1 (hsub.nodup (nodup_finRange _))
  · intro before i after hrun
    obtain ⟨hnew, hbest⟩ := (open_finRange pool.length).choose hrun
    rw [nil_append] at hnew hbest
    refine ⟨hnew, _, worth_score hw _ _, fun j hj => ?_⟩
    refine ⟨_, worth_score hw _ _, ?_⟩
    rw [w.score_map, w.score_map]
    exact hbest j hj

end Choose

open Catalog (DiverseSearch candidate diverse)

/-- **Greedy choice.** A search that gets hits from the store answers with what is chosen from them,
by the products of their vectors with the vector of the question and with each other. In exact
arithmetic, and for every pool of hits with vectors, these are as many hits as the limit allows,
each from another place of the pool. The first is the earliest of the most relevant ones and each
other one is the earliest of those left that are worth most beside the chosen ones. With all the
weight on relevance they are the first hits in the order of falling relevance. -/
theorem searchDiverse_greedy (c : Catalog) (question : String) (d : DiverseSearch) (s s' : Store)
    (hits : List Hit) (hfetch : (c.fetchPool question d).run.run s = (.ok hits, s')) :
    (c.searchDiverse question d).run.run s =
      (.ok (diverse Float32.toFloat (direction (s.vectorOf question)) d.weight d.limit
        (hits.map candidate)), s') ∧
    ∀ (V R : Type) [Add V] [Mul V] [OfNat V 0] [Ring R] [LinearOrder R] (widen : V → R)
      (asked : List V) (limit : Int) (pool : List (Hit × List V)),
      (∀ weight : R, ∃ picks : List (Fin pool.length),
        diverse widen asked weight limit pool = picks.map (fun i => (pool.get i).1.shown) ∧
        picks.length = min limit.toNat pool.length ∧ picks.Nodup ∧
        ∀ before i after, picks = before ++ i :: after →
          EarliestBest (fun x => widen (dot asked x.2)) (fun x y => widen (dot x.2 y.2)) weight pool
            before i) ∧
      diverse widen asked 1 limit pool =
        ((pool.mergeSort fun x y => widen (dot asked y.2) ≤ widen (dot asked x.2)).take
          limit.toNat).map fun x => x.1.shown := by
  constructor
  · rw [Catalog.searchDiverse, run_bind_ok (run_get s), run_bind_ok hfetch]
    rfl
  intro V R _ _ _ _ _ widen asked limit pool
  constructor
  · intro weight
    obtain ⟨picks, hchoice, hlength, hnodup, hbest⟩ :=
      exists_picks (w := weighing widen asked weight) rfl limit.toNat pool
    refine ⟨picks, ?_, hlength, hnodup, hbest⟩
    rw [diverse, hchoice, map_map]
    rfl
  · exact congrArg (List.map _) (choose_relevance (w := weighing widen asked 1) rfl rfl limit.toNat
      [] pool)

/-- Two symbols of one direction, and a third one across. -/
def threeHits : List Hit :=
  [⟨⟨1, .null, [("name", .str "a")]⟩, .null⟩, ⟨⟨2, .null, [("name", .str "b")]⟩, .null⟩,
    ⟨⟨3, .null, [("name", .str "c")]⟩, .null⟩]

def threeSymbols : Store where
  vectorOf _ := [1, 0]
  rank _ _ := threeHits

def threePool : List (Hit × List ℚ) :=
  threeHits.zip [[1, 0], [1, 0], [0, 1]]

/-- The second symbol is as relevant as the first one, but too much like it: the third one is chosen
beside it. -/
theorem searchDiverse_greedy_threeSymbols : ∃ s',
    (Catalog.fetchPool ⟨"x"⟩ "q" { limit := 2 }).run.run threeSymbols = (.ok threeHits, s') ∧
    (choose (weighing id [1, 0] (1 / 4 : ℚ)) 2 [] threePool).map (·.1.point.id) = [1, 3] ∧
    ∃ picks : List (Fin threePool.length), picks.Nodup ∧ picks.length = 2 ∧
      diverse id [1, 0] (1 / 4 : ℚ) 2 threePool = picks.map fun i => (threePool.get i).1.shown := by
  have hwilling : threeSymbols.Willing := fun _ _ => rfl
  have hfetch : (Catalog.fetchPool ⟨"x"⟩ "q" { limit := 2 }).run.run threeSymbols =
      (.ok threeHits, { threeSymbols with made := [.query] }) :=
    (run_bind_ok (run_get threeSymbols)).trans (hwilling.run_query _ _ _ _)
  obtain ⟨picks, hchoice, hlength, hnodup, -⟩ :=
    ((searchDiverse_greedy ⟨"x"⟩ "q" { limit := 2 } threeSymbols _
      threeHits hfetch).2 ℚ ℚ id [1, 0] 2 threePool).1 (1 / 4)
  exact ⟨_, hfetch, by decide +kernel, picks, hnodup, hlength, hchoice⟩

end CodeAtlas.Vector
