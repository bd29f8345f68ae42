import Mathlib.Data.Set.Card
import Mathlib.Tactic.Set
import CodeAtlas.Proofs.CallChains
import CodeAtlas.Proofs.Leading
import CodeAtlas.View.Graph

/-!
# The neighbourhood of a symbol

The view answers a question for a name with the symbols around those of the name. A walk goes
outwards over the links in either direction, round by round, and the answer is cut to a number of
nodes.
-/

namespace CodeAtlas.View

open List

def Joined (v : View) (a b : String) : Prop :=
  ∃ e ∈ v.links, e.source = a ∧ e.target = b ∨ e.source = b ∧ e.target = a

/-- A node is reached from a seed over at most `k` links, in either direction, through symbols of
the index. -/
inductive Near (v : View) (seeds : List Node) : Nat → Node → Prop where
  | seed {k : Nat} {n : Node} (hn : n ∈ seeds) : Near v seeds k n
  | step {k : Nat} {m n : Node} (hm : Near v seeds k m) (hjoined : v.Joined m.id n.id)
    (hn : n ∈ symbolsOf v.nodes) :
      Near v seeds (k + 1) n

variable {v : View} {seeds : List Node} {k : Nat}

variable {n : Node} {e : Edge}

theorem Near.succ (h : v.Near seeds k n) : v.Near seeds (k + 1) n := by
  induction h with
  | seed hn => exact .seed hn
  | step _ hjoined hn ih => exact .step ih hjoined hn

theorem Near.mem (h : v.Near seeds k n) (hseeds : ∀ n ∈ seeds, n ∈ v.nodes) : n ∈ v.nodes := by
  cases h with
  | seed hn => exact hseeds n hn
  | step _ _ hn => exact mem_of_mem_filter hn

theorem mem_neighbours_iff (hids : (v.nodes.map (·.id)).Nodup) {a b : String} :
    b ∈ v.neighbours a ↔ v.Joined a b ∧ ∃ n ∈ symbolsOf v.nodes, n.id = b := by
  have hsymbol :
      (v.node? b).any (fun n => !n.isComment) ↔ ∃ n ∈ symbolsOf v.nodes, n.id = b := by
    rw [Option.any_eq_true]
    constructor
    · rintro ⟨n, hn, hsymbol⟩
      obtain ⟨hid, hheld⟩ := nodeWithId?_eq_some_iff.1 hn
      exact ⟨n, mem_filter.2 ⟨hheld.mem, hsymbol⟩, hid⟩
    · rintro ⟨n, hn, rfl⟩
      obtain ⟨hmem, hsymbol⟩ := mem_filter.1 hn
      exact ⟨n, held_of_nodup hids hmem, hsymbol⟩
  rw [neighbours, mem_filter, hsymbol]
  refine and_congr_left fun _ => ?_
  simp only [mem_append, mem_map, mem_filter, beq_iff_eq]
  constructor
  · rintro (⟨e, ⟨he, hsource⟩, htarget⟩ | ⟨e, ⟨he, htarget⟩, hother⟩)
    · exact ⟨e, he, .inl ⟨hsource, htarget⟩⟩
    · by_cases hloop : e.source = a
      · rw [if_pos hloop] at hother
        exact ⟨e, he, .inl ⟨hloop, hother⟩⟩
      · rw [if_neg hloop] at hother
        exact ⟨e, he, .inr ⟨hother, htarget⟩⟩
  · rintro ⟨e, he, ⟨hsource, htarget⟩ | ⟨hsource, htarget⟩⟩
    · exact .inl ⟨e, ⟨he, hsource⟩, htarget⟩
    · refine .inr ⟨e, ⟨he, htarget⟩, ?_⟩
      by_cases hloop : e.source = a
      · rw [if_pos hloop, htarget, ← hloop, hsource]
      · rw [if_neg hloop, hsource]

/-! ## The walk

A round takes the walk from one distance to the next; `Covers` is its invariant. -/

/-- What a walk knows after `k` rounds. It has followed the links of the nodes that are nearer than
`k`, and it has reached all nodes within `k`, each once. -/
structure Walk.Covers (v : View) (seeds : List Node) (k : Nat) (w : Walk) : Prop where
  nodup : (w.inner ++ w.outer).Nodup
  mem_inner : ∀ id, id ∈ w.inner ↔ ∃ j n, k = j + 1 ∧ v.Near seeds j n ∧ n.id = id
  mem_reached : ∀ id, id ∈ w.inner ++ w.outer ↔ ∃ n, v.Near seeds k n ∧ n.id = id

theorem Walk.covers_start (v : View) (hnodup : (seeds.map (·.id)).Nodup) :
    Walk.Covers v seeds 0 ⟨[], seeds.map (·.id)⟩ := by
  refine ⟨hnodup, fun id => by simp, fun id => ?_⟩
  rw [nil_append, mem_map]
  constructor
  · rintro ⟨n, hn, hid⟩
    exact ⟨n, .seed hn, hid⟩
  · rintro ⟨n, hn, hid⟩
    cases hn with
    | seed hn => exact ⟨n, hn, hid⟩

/-- The step: one round follows the links of the nodes reached last. -/
theorem Walk.Covers.round {w : Walk} (hids : (v.nodes.map (·.id)).Nodup) (h : w.Covers v seeds k) :
    (w.round v).Covers v seeds (k + 1) := by
  have hnew (id : String) : id ∈ (w.round v).outer ↔
      (∃ a ∈ w.outer, id ∈ v.neighbours a) ∧ id ∉ w.inner ++ w.outer := by
    simp [Walk.round, mem_distinct]
  refine ⟨?_, fun id => ?_, fun id => ?_⟩
  · show ((w.inner ++ w.outer) ++ (w.round v).outer).Nodup
    refine h.nodup.append ((nodup_distinct _).filter _) fun id hold hfound => ?_
    exact ((hnew id).1 hfound).2 hold
  · show id ∈ w.inner ++ w.outer ↔ _
    rw [h.mem_reached]
    constructor
    · rintro ⟨n, hn, hid⟩
      exact ⟨k, n, rfl, hn, hid⟩
    · rintro ⟨j, n, hj, hn, hid⟩
      obtain rfl : k = j := by omega
      exact ⟨n, hn, hid⟩
  · show id ∈ (w.inner ++ w.outer) ++ (w.round v).outer ↔ _
    rw [mem_append, hnew]
    constructor
    · rintro (hold | ⟨⟨a, ha, hfound⟩, -⟩)
      · obtain ⟨n, hn, hid⟩ := (h.mem_reached id).1 hold
        exact ⟨n, hn.succ, hid⟩
      · obtain ⟨m, hm, rfl⟩ := (h.mem_reached a).1 (mem_append_right _ ha)
        obtain ⟨hjoined, n, hn, rfl⟩ := (mem_neighbours_iff hids).1 hfound
        exact ⟨n, .step hm hjoined hn, rfl⟩
    · rintro ⟨n, hn, rfl⟩
      by_cases hold : n.id ∈ w.inner ++ w.outer
      · exact .inl hold
      · refine .inr ⟨?_, hold⟩
        cases hn with
        | seed hn => exact absurd ((h.mem_reached n.id).2 ⟨n, .seed hn, rfl⟩) hold
        | @step _ m _ hm hjoined hn =>
          rcases mem_append.1 ((h.mem_reached m.id).2 ⟨m, hm, rfl⟩) with hinner | houter
          · -- the links of an inner node were followed, so the node is no new one
            obtain ⟨j, m', rfl, hm', hid⟩ := (h.mem_inner m.id).1 hinner
            exact absurd ((h.mem_reached n.id).2 ⟨n, .step hm' (hid ▸ hjoined) hn, rfl⟩) hold
          · exact ⟨m.id, houter, (mem_neighbours_iff hids).2 ⟨hjoined, n, hn, rfl⟩⟩

/-- The run, by induction on the rounds. -/
theorem Walk.Covers.rounds {w : Walk} (hids : (v.nodes.map (·.id)).Nodup) (h : w.Covers v seeds k)
    (n : Nat) : (Walk.rounds v n w).Covers v seeds (k + n) := by
  induction n generalizing k w with
  | zero => exact h
  | succ n ih =>
    have hnext := ih (h.round hids)
    rwa [show k + 1 + n = k + (n + 1) by omega] at hnext

def ends (e : Edge) : String × String :=
  (e.source, e.target)

theorem firstLinks_concat (links : List Edge) (e : Edge) : firstLinks (links ++ [e]) =
    if ends e ∈ (firstLinks links).map ends then firstLinks links else firstLinks links ++ [e] := by
  have hany :
      ((firstLinks links).any fun k => k.source == e.source && k.target == e.target) ↔
      ends e ∈ (firstLinks links).map ends := by
    rw [any_eq_true, mem_map]
    refine exists_congr fun k => and_congr_right fun _ => ?_
    simp [ends]
  rw [firstLinks, foldl_append]
  show (if ((firstLinks links).any fun k => k.source == e.source && k.target == e.target)
    then firstLinks links else firstLinks links ++ [e]) = _
  simp only [hany]

theorem mem_of_mem_firstLinks {links : List Edge} (h : e ∈ firstLinks links) : e ∈ links := by
  induction links using List.reverseRecOn with
  | nil => cases h
  | append_singleton links f ih =>
    rw [firstLinks_concat] at h
    split at h
    · exact mem_append_left _ (ih h)
    · rcases mem_append.1 h with h | h
      · exact mem_append_left _ (ih h)
      · exact mem_append_right _ h

theorem nodup_ends_firstLinks (links : List Edge) : ((firstLinks links).map ends).Nodup := by
  induction links using List.reverseRecOn with
  | nil => exact nodup_nil
  | append_singleton links e ih =>
    rw [firstLinks_concat]
    split
    · exact ih
    · next hnew =>
      rw [map_append, map_singleton]
      exact ih.append (nodup_singleton _) (by simpa using hnew)

theorem exists_mem_firstLinks {links : List Edge} (he : e ∈ links) :
    ∃ f ∈ firstLinks links, ends f = ends e := by
  induction links using List.reverseRecOn with
  | nil => cases he
  | append_singleton links f ih =>
    rw [firstLinks_concat]
    rcases mem_append.1 he with he | he
    · obtain ⟨g, hg, hends⟩ := ih he
      refine ⟨g, ?_, hends⟩
      split
      · exact hg
      · exact mem_append_left _ hg
    · obtain rfl := mem_singleton.1 he
      split
      · next hold => exact mem_map.1 hold
      · exact ⟨e, mem_append_right _ (mem_singleton_self e), rfl⟩

/-- The seeds and the nodes around them that have most links, as many as the limit allows, and the
links between them. -/
structure CappedBall (v : View) (seeds : List Node) (hops : Nat) (limit : Int) (shown : List Node)
    (links : List Edge) :
    Prop where
  nodup : shown.Nodup
  seeds_shown : ∀ n ∈ seeds, n ∈ shown
  near : ∀ n ∈ shown, v.Near seeds hops n
  /-- As many nodes are shown as are there, up to the limit, which gives way to the seeds. -/
  size : (shown.length : Int) = min ({n | v.Near seeds hops n}.ncard : Int) (max limit seeds.length)
  /-- What is left out has no more links than what is kept besides the seeds. -/
  degree_le : ∀ n, v.Near seeds hops n → n ∉ shown → ∀ m ∈ shown, m ∉ seeds →
    v.degree n.id ≤ v.degree m.id
  joins : ∀ e ∈ links, e ∈ v.links ∧ (∃ m ∈ shown, m.id = e.source) ∧ ∃ n ∈ shown, n.id = e.target
  /-- No two links have the same ends. -/
  nodup_ends : (links.map ends).Nodup
  /-- Between two nodes that are shown no link is missing, unless both are as far away as
  possible. -/
  joined : ∀ e ∈ v.links, ∀ m ∈ shown, ∀ n ∈ shown, m.id = e.source → n.id = e.target →
    v.Near seeds (hops - 1) m ∨ v.Near seeds (hops - 1) n → ∃ f ∈ links, ends f = ends e

section Nodes

variable (hids : (v.nodes.map (·.id)).Nodup)

include hids

theorem node?_eq_some_iff {id : String} : v.node? id = some n ↔ n ∈ v.nodes ∧ n.id = id := by
  constructor
  · intro h
    obtain ⟨hid, hheld⟩ := nodeWithId?_eq_some_iff.1 h
    exact ⟨hheld.mem, hid⟩
  · rintro ⟨hn, rfl⟩
    exact held_of_nodup hids hn

theorem mem_filterMap_node?_iff {ids : List String} :
    n ∈ ids.filterMap v.node? ↔ n ∈ v.nodes ∧ n.id ∈ ids := by
  simp only [mem_filterMap, node?_eq_some_iff hids]
  constructor
  · rintro ⟨id, hid, hn, rfl⟩
    exact ⟨hn, hid⟩
  · rintro ⟨hn, hid⟩
    exact ⟨n.id, hid, hn, rfl⟩

theorem map_id_filterMap_node? {ids : List String} (hnodes : ∀ id ∈ ids, ∃ n ∈ v.nodes, n.id = id) :
    (ids.filterMap v.node?).map (·.id) = ids := by
  induction ids with
  | nil => rfl
  | cons id ids ih =>
    obtain ⟨n, hn, rfl⟩ := hnodes id mem_cons_self
    rw [filterMap_cons_some ((node?_eq_some_iff hids).2 ⟨hn, rfl⟩), map_cons,
      ih fun id hid => hnodes id (mem_cons_of_mem _ hid)]

theorem mem_map_id_iff (hseeds : ∀ n ∈ seeds, n ∈ v.nodes) (hn : n ∈ v.nodes) :
    n.id ∈ seeds.map (·.id) ↔ n ∈ seeds := by
  refine ⟨fun hid => ?_, fun hn => mem_map.2 ⟨n, hn, rfl⟩⟩
  obtain ⟨s, hs, hsame⟩ := mem_map.1 hid
  rwa [← inj_on_of_nodup_map hids (hseeds s hs) hn hsame]

theorem ncard_near {hops : Nat} {reached : List String} (hseeds : ∀ n ∈ seeds, n ∈ v.nodes)
    (hnodup : reached.Nodup)
    (hreached : ∀ id, id ∈ reached ↔ ∃ n, v.Near seeds hops n ∧ n.id = id) :
    {n | v.Near seeds hops n}.ncard = reached.length := by
  have hids' : (reached.filterMap v.node?).map (·.id) = reached := by
    refine map_id_filterMap_node? hids fun id hid => ?_
    obtain ⟨n, hn, rfl⟩ := (hreached id).1 hid
    exact ⟨n, hn.mem hseeds, rfl⟩
  have hset : {n | v.Near seeds hops n} = ((reached.filterMap v.node?).toFinset : Set Node) := by
    ext n
    rw [Finset.mem_coe, mem_toFinset, mem_filterMap_node?_iff hids, hreached]
    constructor
    · intro hn
      exact ⟨hn.mem hseeds, n, hn, rfl⟩
    · rintro ⟨hn, m, hm, hid⟩
      rwa [← inj_on_of_nodup_map hids (hm.mem hseeds) hn hid]
  have hdistinct : (reached.filterMap v.node?).Nodup := .of_map (·.id) (by rwa [hids'])
  rw [hset, Set.ncard_coe_finset, toFinset_card_of_nodup hdistinct, ← congrArg List.length hids',
    length_map]

end Nodes

/-! ### Nodes and links that are kept

The limit leaves the seeds in, and of all others takes those with most links. -/

section Kept

variable {order : SetOrder} {w : Walk} {ids : List String} {limit : Int}

theorem ids_shown (order : SetOrder) (v : View) (ids : List String) (limit : Int) (w : Walk) :
    (w.shown order v ids limit).ids = order.list ids ++
      (((order.list (w.inner ++ w.outer)).filter fun id => !ids.contains id).mergeSort
        fun a b => v.degree b ≤ v.degree a).take (limit - ids.length).toNat :=
  rfl

theorem mem_kept {id : String} (h : id ∈ (w.shown order v ids limit).ids)
    (hseeds : ∀ id ∈ ids, id ∈ w.inner ++ w.outer) : id ∈ w.inner ++ w.outer := by
  rw [ids_shown] at h
  rcases mem_append.1 h with h | h
  · exact hseeds id ((order.perm ids).subset h)
  · exact (order.perm _).subset (mem_of_mem_filter (mem_mergeSort.1 (mem_of_mem_take h)))

theorem nodup_kept (hids : ids.Nodup) (hreached : (w.inner ++ w.outer).Nodup) :
    (w.shown order v ids limit).ids.Nodup := by
  rw [ids_shown]
  refine ((order.perm ids).nodup_iff.2 hids).append ?_ fun id hold hnew => ?_
  · have hothers := ((order.perm _).nodup_iff.2 hreached).filter fun id => !ids.contains id
    exact ((mergeSort_perm _ _).nodup_iff.2 hothers).sublist (take_sublist _ _)
  · have hother := (mem_filter.1 (mem_mergeSort.1 (mem_of_mem_take hnew))).2
    simp [(order.perm ids).subset hold] at hother

/-- The limit is met where there are nodes enough, but no seed is left out for it. -/
theorem length_kept (hids : ids.Nodup) (hreached : (w.inner ++ w.outer).Nodup)
    (hseeds : ∀ id ∈ ids, id ∈ w.inner ++ w.outer) :
    ((w.shown order v ids limit).ids.length : Int) = min ((w.inner ++ w.outer).length : Int)
      (max limit ids.length) := by
  -- the walk reached the seeds and the others
  have hperm : ((w.inner ++ w.outer).filter ids.contains).Perm ids := by
    refine (perm_ext_iff_of_nodup (hreached.filter _) hids).2 fun id => ?_
    rw [mem_filter, contains_iff_mem]
    exact ⟨fun h => h.2, fun h => ⟨hseeds id h, h⟩⟩
  have hsplit := (filter_append_perm ids.contains (w.inner ++ w.outer)).length_eq
  rw [length_append, hperm.length_eq] at hsplit
  have hothers := ((order.perm (w.inner ++ w.outer)).filter fun id => !ids.contains id).length_eq
  rw [ids_shown, length_append, length_take, length_mergeSort, hothers, (order.perm ids).length_eq]
  omega

/-- What is left out has no more links than what is kept besides the seeds. -/
theorem degree_le_of_kept {a b : String} (ha : a ∈ w.inner ++ w.outer)
    (hout : a ∉ (w.shown order v ids limit).ids)
    (hb : b ∈ (w.shown order v ids limit).ids) (hseed : b ∉ ids) : v.degree a ≤ v.degree b := by
  rw [ids_shown, mem_append, (order.perm ids).mem_iff] at hout hb
  rw [not_or] at hout
  have hother : a ∈ (order.list (w.inner ++ w.outer)).filter fun id => !ids.contains id :=
    mem_filter.2 ⟨(order.perm _).mem_iff.2 ha, by simpa using hout.1⟩
  have hle := le_of_mem_take_mergeSort ?_ ?_ (hb.resolve_left hseed) hother hout.2
  · simpa using hle
  · intro a b c hab hbc
    simp only [decide_eq_true_eq] at hab hbc ⊢
    omega
  · intro a b
    simp only [Bool.or_eq_true, decide_eq_true_eq]
    omega

theorem mem_links_shown (he : e ∈ (w.shown order v ids limit).links) :
    e ∈ v.links ∧ e.source ∈ (w.shown order v ids limit).ids ∧
      e.target ∈ (w.shown order v ids limit).ids := by
  obtain ⟨hfirst, hboth⟩ := mem_filter.1 he
  rw [Bool.and_eq_true, contains_iff_mem, contains_iff_mem] at hboth
  exact ⟨mem_of_mem_filter (mem_of_mem_firstLinks ((order.perm _).subset hfirst)), hboth⟩

theorem nodup_ends_links_shown : ((w.shown order v ids limit).links.map ends).Nodup :=
  (((order.perm _).map ends).nodup_iff.2 (nodup_ends_firstLinks _)).sublist
    (filter_sublist.map ends)

/-- A link between two nodes that are shown is shown if the walk has followed it. -/
theorem exists_link_shown (he : e ∈ v.links) (hinner : e.source ∈ w.inner ∨ e.target ∈ w.inner)
    (hsource : e.source ∈ (w.shown order v ids limit).ids)
    (htarget : e.target ∈ (w.shown order v ids limit).ids) :
    ∃ f ∈ (w.shown order v ids limit).links, ends f = ends e := by
  have htouched :
      e ∈ v.links.filter fun e => w.inner.contains e.source || w.inner.contains e.target := by
    refine mem_filter.2 ⟨he, ?_⟩
    rwa [Bool.or_eq_true, contains_iff_mem, contains_iff_mem]
  obtain ⟨f, hf, hends⟩ := exists_mem_firstLinks htouched
  obtain ⟨hfsource, hftarget⟩ := Prod.mk.inj hends
  refine ⟨f, mem_filter.2 ⟨(order.perm _).mem_iff.2 hf, ?_⟩, hends⟩
  rw [Bool.and_eq_true, contains_iff_mem, contains_iff_mem, hfsource, hftarget]
  exact ⟨hsource, htarget⟩

end Kept

section Ball

variable {order : SetOrder} {w : Walk} {hops : Nat} (hids : (v.nodes.map (·.id)).Nodup)
  (hseeds : ∀ n ∈ seeds, n ∈ v.nodes) (hw : w.Covers v seeds (hops + 1))

include hw

theorem Walk.Covers.seed_mem : ∀ id ∈ seeds.map (·.id), id ∈ w.inner ++ w.outer := by
  intro id hid
  obtain ⟨n, hn, rfl⟩ := mem_map.1 hid
  exact (hw.mem_reached n.id).2 ⟨n, .seed hn, rfl⟩

include hids hseeds

theorem Walk.Covers.near_iff (hn : n ∈ v.nodes) :
    n.id ∈ w.inner ++ w.outer ↔ v.Near seeds (hops + 1) n := by
  rw [hw.mem_reached]
  constructor
  · rintro ⟨m, hm, hid⟩
    rwa [← inj_on_of_nodup_map hids (hm.mem hseeds) hn hid]
  · intro hnear
    exact ⟨n, hnear, rfl⟩

theorem Walk.Covers.map_id_shown (limit : Int) :
    ((w.shown order v (seeds.map (·.id)) limit).ids.filterMap v.node?).map (·.id) =
      (w.shown order v (seeds.map (·.id)) limit).ids := by
  refine map_id_filterMap_node? hids fun id hid => ?_
  obtain ⟨n, hn, rfl⟩ := (hw.mem_reached id).1 (mem_kept hid hw.seed_mem)
  exact ⟨n, hn.mem hseeds, rfl⟩

/-- What is shown after some rounds, with the walk no longer in sight. -/
theorem Walk.Covers.cappedBall (order : SetOrder) (limit : Int)
    (hnodup : (seeds.map (·.id)).Nodup) :
    CappedBall v seeds (hops + 1) limit ((w.shown order v (seeds.map (·.id)) limit).ids.filterMap
      v.node?) (w.shown order v (seeds.map (·.id)) limit).links := by
  set h := w.shown order v (seeds.map (·.id)) limit
  have hmap : (h.ids.filterMap v.node?).map (·.id) = h.ids := hw.map_id_shown hids hseeds limit
  have hkept : h.ids.Nodup := nodup_kept hnodup hw.nodup
  have hlength : (h.ids.length : Int) = _ := length_kept hnodup hw.nodup hw.seed_mem
  have hshown {n : Node} : n ∈ h.ids.filterMap v.node? ↔ n ∈ v.nodes ∧ n.id ∈ h.ids :=
    mem_filterMap_node?_iff hids
  have hseed {n : Node} (hn : n ∈ v.nodes) : n.id ∈ seeds.map (·.id) ↔ n ∈ seeds :=
    mem_map_id_iff hids hseeds hn
  constructor
  case nodup => exact .of_map (·.id) (by rwa [hmap])
  case seeds_shown =>
    intro n hn
    exact hshown.2
      ⟨hseeds n hn, mem_append_left _ ((order.perm _).mem_iff.2 ((hseed (hseeds n hn)).2 hn))⟩
  case near =>
    intro n hn
    obtain ⟨hmem, hid⟩ := hshown.1 hn
    exact (hw.near_iff hids hseeds hmem).1 (mem_kept hid hw.seed_mem)
  case size =>
    rw [ncard_near hids hseeds hw.nodup hw.mem_reached, ← length_map (f := fun n : Node => n.id),
      hmap, hlength, length_map]
  case degree_le =>
    intro n hn hout m hm hother
    have hmem := hn.mem hseeds
    obtain ⟨hmmem, hmid⟩ := hshown.1 hm
    exact degree_le_of_kept ((hw.near_iff hids hseeds hmem).2 hn)
      (fun hid => hout (hshown.2 ⟨hmem, hid⟩)) hmid fun hid => hother ((hseed hmmem).1 hid)
  case joins =>
    intro e he
    obtain ⟨hlink, hsource, htarget⟩ := mem_links_shown he
    rw [← hmap] at hsource htarget
    exact ⟨hlink, mem_map.1 hsource, mem_map.1 htarget⟩
  case nodup_ends => exact nodup_ends_links_shown
  case joined =>
    intro e he m hm n hn hsource htarget hclose
    have hinner {n : Node} (hn : v.Near seeds hops n) : n.id ∈ w.inner :=
      (hw.mem_inner n.id).2 ⟨hops, n, rfl, hn, rfl⟩
    refine exists_link_shown he ?_ (hsource ▸ (hshown.1 hm).2) (htarget ▸ (hshown.1 hn).2)
    rw [← hsource, ← htarget]
    exact hclose.imp hinner hinner

end Ball

theorem seeds_sublist (v : View) (name : String) : (v.seeds name).Sublist v.nodes := by
  unfold seeds
  dsimp only
  split
  · exact filter_sublist.trans filter_sublist
  · exact filter_sublist.trans filter_sublist

theorem neighbourhood_eq (order : SetOrder) {name : String} (hops limit : Int)
    (hnodup : ((v.seeds name).map (·.id)).Nodup)
    (hne : v.seeds name ≠ []) : v.neighbourhood order name hops limit =
      .ok ((Walk.rounds v hops.toNat ⟨[], (v.seeds name).map (·.id)⟩).shown order v
        ((v.seeds name).map (·.id)) limit) := by
  rw [neighbourhood, distinct_eq_self hnodup]
  cases hseeds : (v.seeds name).map (·.id) with
  | nil => exact absurd (map_eq_nil_iff.1 hseeds) hne
  | cons s rest => rfl

theorem neighbourhoodJson_shown (order : SetOrder) (hids : (v.nodes.map (·.id)).Nodup)
    (hseeds : ∀ n ∈ seeds, n ∈ v.nodes) (limit : Int)
    (w : Walk) : v.neighbourhoodJson (w.shown order v (seeds.map (·.id)) limit) =
      .obj [("nodes", .arr (((w.shown order v (seeds.map (·.id)) limit).ids.filterMap v.node?).map
        fun n =>
          v.nodeJson (n ∈ seeds) n)),
        ("edges", .arr ((w.shown order v (seeds.map (·.id)) limit).links.map fun e =>
          .obj [("source", .str e.source), ("target", .str e.target),
            ("relation", .str e.relation.word)]))] := by
  -- a node is marked as a seed by its identifier
  have hmark (id : String) : (v.node? id).map (v.nodeJson ((seeds.map (·.id)).contains id)) =
      (v.node? id).map fun n => v.nodeJson (n ∈ seeds) n := by
    cases hnode : v.node? id with
    | none => rfl
    | some n =>
      obtain ⟨hn, rfl⟩ := (node?_eq_some_iff hids).1 hnode
      have hsame : (seeds.map (·.id)).contains n.id = decide (n ∈ seeds) := by
        rw [Bool.eq_iff_iff, contains_iff_mem, decide_eq_true_eq, mem_map_id_iff hids hseeds hn]
      rw [Option.map_some, Option.map_some, hsame]
  rw [neighbourhoodJson, map_filterMap]
  simp only [← hmark]
  rfl

def starNode (id name : String) : Node :=
  { id := id, kind := .function, name := name, loc := { file := "a.py", first := 1, last := 1 },
    language := "python" }

def alpha : Node := starNode "a" "alpha"
def beta : Node := starNode "b" "beta"
def gamma : Node := starNode "c" "gamma"

def starGraph : Index.Graph where
  nodes := [alpha, beta, gamma, starNode "d" "delta"]
  edges := [("a", "c"), ("a", "b"), ("b", "d")].map fun e =>
    { source := e.1, target := e.2, relation := .imports }

def starView : View := ofGraph "p" starGraph

def backwards : SetOrder where
  list := reverse
  perm := reverse_perm

theorem ends_links_starView : starView.links.map ends = [("a", "c"), ("a", "b"), ("b", "d")] := by
  decide +kernel

theorem near_alpha_iff : starView.Near [alpha] 1 n ↔ n ∈ [alpha, beta, gamma] := by
  constructor
  · intro h
    cases h with
    | seed hn => exact mem_cons.2 (.inl (mem_singleton.1 hn))
    | step hm hjoined hn =>
      cases hm with
      | seed hm =>
        obtain rfl := mem_singleton.1 hm
        obtain ⟨e, he, hends⟩ := hjoined
        have hpair := ends_links_starView ▸ mem_map_of_mem (f := ends) he
        have hn : n ∈ starGraph.nodes := mem_of_mem_filter hn
        simp only [starGraph, mem_cons, not_mem_nil, or_false] at hn
        rcases hn with rfl | rfl | rfl | rfl
        · simp
        · simp
        · simp
        · -- no link joins the last function to the first one
          rcases hends with ⟨hsource, htarget⟩ | ⟨hsource, htarget⟩ <;>
            simp [ends, hsource, htarget, alpha, starNode] at hpair
  · have hstep {n : Node} (hn : n ∈ symbolsOf starView.nodes)
        (he : ("a", n.id) ∈ starView.links.map ends) : starView.Near [alpha] 1 n := by
      obtain ⟨e, he, hends⟩ := mem_map.1 he
      obtain ⟨hsource, htarget⟩ := Prod.mk.inj hends
      exact .step (.seed (mem_singleton_self alpha)) ⟨e, he, .inl ⟨hsource, htarget⟩⟩ hn
    intro hn
    simp only [mem_cons, not_mem_nil, or_false] at hn
    rcases hn with rfl | rfl | rfl
    · exact .seed (mem_singleton_self alpha)
    · exact hstep (by decide) (by simp [ends_links_starView, beta, starNode])
    · exact hstep (by decide) (by simp [ends_links_starView, gamma, starNode])

end CodeAtlas.View
