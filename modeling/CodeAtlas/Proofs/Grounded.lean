import CodeAtlas.Extract.Languages

/-!
# Grounded emissions

The parts of a file emit edges whose ends may be emitted by another part: the edge that defines a
method starts at the class around it. What a part owes to its surroundings is stated relative to the
nodes that are emitted outside of it, and is glued along the way in which emissions are appended.

* **`Ensures`** — what holds of every result of a reading. A reading that fails promises nothing.
* **`Returns`** — a reading does not fail. In a `Legible` file, where every span is text, none does.
* **`Site.Holds`** — a tree node stands in the file. It is handed down from the root.
* **`Grounded`** — every edge of an emission has its ends where they belong, among the nodes of the
  emission or of its surroundings, and every node is placed in the file that is read.
* **`Grounded.append`** — the gluing lemma: the second emission may lean on the nodes of the first.
-/

namespace CodeAtlas

open List

namespace Source.Tree

theorem mem_preorderAll {u : Tree} {ts : List Tree} :
    u ∈ preorderAll ts ↔ ∃ t ∈ ts, u ∈ t.preorder := by
  induction ts with
  | nil => simp [preorderAll]
  | cons t ts ih => simp [preorderAll, ih]

theorem self_mem_preorder (t : Tree) : t ∈ t.preorder := by
  rw [preorder_eq]
  exact mem_cons_self

theorem mem_preorder_of_mem_children {t c u : Tree} (hc : c ∈ t.children) (hu : u ∈ c.preorder) :
    u ∈ t.preorder := by
  rw [preorder_eq]
  exact mem_cons_of_mem _ (mem_preorderAll.mpr ⟨c, hc, hu⟩)

mutual

/-- What stands below a tree node of a tree stands in the tree. Induction on the tree. -/
theorem mem_preorder_trans {u v : Tree} (hv : v ∈ u.preorder) :
    ∀ t : Tree, u ∈ t.preorder → v ∈ t.preorder
  | .node kind start stop cs, hu => by
    rw [preorder, mem_cons] at hu
    rcases hu with rfl | hu
    · exact hv
    · rw [preorder]
      exact mem_cons_of_mem _ (mem_preorderAll_trans hv cs hu)

theorem mem_preorderAll_trans {u v : Tree} (hv : v ∈ u.preorder) :
    ∀ ts : List Tree, u ∈ preorderAll ts → v ∈ preorderAll ts
  | [], hu => by
    rw [preorderAll] at hu
    exact absurd hu not_mem_nil
  | t :: ts, hu => by
    rw [preorderAll, mem_append] at hu ⊢
    exact hu.imp (mem_preorder_trans hv t) (mem_preorderAll_trans hv ts)

end

/-- No span of the tree or below it ends before it starts. -/
def Spanned (t : Tree) : Prop :=
  ∀ u ∈ t.preorder, u.start ≤ u.stop

instance (t : Tree) : Decidable t.Spanned :=
  inferInstanceAs (Decidable (∀ u ∈ t.preorder, u.start ≤ u.stop))

end Source.Tree

namespace Extract

open Source (Tree Parsed)

/-! ## What holds of every result

`Ensures` and `Returns` follow the ways in which readings are put together. -/

/-- Whatever a reading ends with satisfies `P`. -/
def Ensures {α : Type} (r : Reads α) (P : α → Prop) : Prop :=
  ∀ a, r = .ok a → P a

namespace Ensures

variable {α β : Type} {P : β → Prop}

theorem ok {a : β} (h : P a) : Ensures (.ok a) P := by
  intro b hb
  cases hb
  exact h

theorem pure {a : β} (h : P a) : Ensures (Pure.pure a) P :=
  ok h

theorem bind {Q : α → Prop} {r : Reads α} {f : α → Reads β} (hr : Ensures r Q)
    (hf : ∀ a, Q a → Ensures (f a) P) : Ensures (r >>= f) P := by
  intro b hb
  cases r with
  | error fault => cases hb
  | ok a => exact hf a (hr a rfl) b hb

theorem keep {r : Reads β} {f : β → Reads β} (hr : Ensures r P) (hf : ∀ a, P a → Ensures (f a) P) :
    Ensures (r >>= f) P :=
  bind hr hf

theorem read {r : Reads α} {f : α → Reads β} (hf : ∀ a, r = .ok a → Ensures (f a) P) :
    Ensures (r >>= f) P :=
  bind (Q := fun a => r = .ok a) (fun _ h => h) hf

theorem after {r : Reads α} {f : α → Reads β} (hf : ∀ a, Ensures (f a) P) : Ensures (r >>= f) P :=
  read fun a _ => hf a

/-- Without a name nothing is emitted. -/
theorem named {P : Emission → Prop} {r : Reads String} {f : String → Reads Emission} (hnil : P {})
    (hf : ∀ name, Ensures (f name) P) :
    Ensures (r >>= fun name => if name.isEmpty then Pure.pure {} else f name) P := by
  refine after fun name => ?_
  split
  · exact pure hnil
  · exact hf name

end Ensures

/-- A reading does not fail. In a `Legible` file, where every span is text, none does. -/
def Returns {α : Type} (r : Reads α) : Prop :=
  ∃ a, r = .ok a

theorem exists_eq_ok {α : Type} {r : Reads α} (h : r.toOption.isSome) : Returns r := by
  cases r with
  | error fault => cases h
  | ok a => exact ⟨a, rfl⟩

theorem eq_ok_of_toOption {α : Type} {r : Reads α} {a : α} (h : r.toOption = some a) :
    r = .ok a := by
  cases r with
  | error fault => cases h
  | ok b => rw [Option.some.inj h]

theorem bind_eq_ok_iff {ε α β : Type} {r : Except ε α} {f : α → Except ε β} {b : β} :
    r >>= f = .ok b ↔ ∃ a, r = .ok a ∧ f a = .ok b := by
  cases r with
  | error fault => exact iff_of_false (by intro h; cases h) (by rintro ⟨a, h, -⟩; cases h)
  | ok a =>
    constructor
    · intro h
      exact ⟨a, rfl, h⟩
    · rintro ⟨a', ha, h⟩
      cases ha
      exact h

namespace Returns

variable {α β : Type}

theorem ok (a : α) : Returns (.ok a) :=
  ⟨a, rfl⟩

theorem pure (a : α) : Returns (Pure.pure a : Reads α) :=
  ok a

theorem bind {r : Reads α} {f : α → Reads β} (hr : Returns r) (hf : ∀ a, Returns (f a)) :
    Returns (r >>= f) := by
  obtain ⟨a, ha⟩ := hr
  obtain ⟨b, hb⟩ := hf a
  exact ⟨b, bind_eq_ok_iff.2 ⟨a, ha, hb⟩⟩

theorem named {r : Reads String} {f : String → Reads Emission} (hr : Returns r)
    (hf : ∀ name, Returns (f name)) :
    Returns (r >>= fun name => if name.isEmpty then Pure.pure {} else f name) := by
  refine bind hr fun name => ?_
  split
  · exact pure _
  · exact hf name

theorem map {r : Reads α} (f : α → β) (hr : Returns r) : Returns (r.map f) := by
  obtain ⟨a, rfl⟩ := hr
  exact ok (f a)

theorem gather {emit : α → Reads Emission} {items : List α} (h : ∀ a ∈ items, Returns (emit a)) :
    Returns (Emission.gather emit items) := by
  induction items with
  | nil => exact ok _
  | cons a rest ih =>
    have hrest := ih fun b hb => h b (mem_cons_of_mem _ hb)
    exact bind (h a mem_cons_self) fun _ => bind hrest fun _ => pure _

theorem collect {f : α → Reads (Option β)} {items : List α} (h : ∀ a ∈ items, Returns (f a)) :
    Returns (collect f items) := by
  induction items with
  | nil => exact ok []
  | cons a rest ih =>
    have hrest := ih fun b hb => h b (mem_cons_of_mem _ hb)
    exact bind (h a mem_cons_self) fun _ => bind hrest fun _ => pure _

end Returns

section Parts

variable {α : Type} {emit : α → Reads Emission} {items : List α} {em : Emission}

theorem exists_infix_of_gather {a : α} (h : Emission.gather emit items = .ok em) (ha : a ∈ items) :
    ∃ part, emit a = .ok part ∧ part.edges <:+: em.edges := by
  induction items generalizing em with
  | nil => exact absurd ha not_mem_nil
  | cons b rest ih =>
    obtain ⟨first, hfirst, hmore⟩ := bind_eq_ok_iff.1 h
    obtain ⟨others, hothers, hem⟩ := bind_eq_ok_iff.1 hmore
    rw [← Except.ok.inj hem, Emission.append_edges]
    rcases mem_cons.1 ha with rfl | ha
    · exact ⟨first, hfirst, (prefix_append _ _).isInfix⟩
    · obtain ⟨part, hpart, hinfix⟩ := ih hothers ha
      exact ⟨part, hpart, hinfix.trans (suffix_append _ _).isInfix⟩

theorem exists_part_of_gather {e : Edge} (h : Emission.gather emit items = .ok em)
    (he : e ∈ em.edges) :
    ∃ a ∈ items, ∃ part, emit a = .ok part ∧ e ∈ part.edges := by
  induction items generalizing em with
  | nil =>
    cases h
    exact absurd he not_mem_nil
  | cons b rest ih =>
    obtain ⟨first, hfirst, hmore⟩ := bind_eq_ok_iff.1 h
    obtain ⟨others, hothers, hem⟩ := bind_eq_ok_iff.1 hmore
    rw [← Except.ok.inj hem, Emission.append_edges, mem_append] at he
    rcases he with he | he
    · exact ⟨b, mem_cons_self, first, hfirst, he⟩
    · obtain ⟨a, ha, hpart⟩ := ih hothers he
      exact ⟨a, mem_cons_of_mem b ha, hpart⟩

variable {β : Type} {f : α → Reads (Option β)} {found : List β} {a : α} {b : β}

theorem collect_eq_ok (h : collect f items = .ok found) :
    (∀ a ∈ items, Returns (f a)) ∧ found = items.filterMap fun a => (f a).toOption.join := by
  induction items generalizing found with
  | nil => exact ⟨forall_mem_nil _, (Except.ok.inj h).symm⟩
  | cons a rest ih =>
    obtain ⟨first, hfirst, hmore⟩ := bind_eq_ok_iff.1 h
    obtain ⟨others, hothers, hall⟩ := bind_eq_ok_iff.1 hmore
    obtain ⟨hreturns, hrest⟩ := ih hothers
    refine ⟨forall_mem_cons.2 ⟨⟨first, hfirst⟩, hreturns⟩, ?_⟩
    rw [← Except.ok.inj hall, filterMap_cons, hfirst, hrest]
    cases first <;> rfl

theorem join_toOption_eq_some_iff {r : Reads (Option β)} :
    r.toOption.join = some b ↔ r = .ok (some b) := by
  rw [Option.join_eq_some_iff]
  exact ⟨eq_ok_of_toOption, fun h => by rw [h]; rfl⟩

theorem mem_of_collect (hfound : collect f items = .ok found) (ha : a ∈ items)
    (hb : f a = .ok (some b)) : b ∈ found := by
  rw [(collect_eq_ok hfound).2]
  exact mem_filterMap.2 ⟨a, ha, join_toOption_eq_some_iff.2 hb⟩

theorem ensures_collect {P : β → Prop} (h : ∀ a ∈ items, Ensures (f a) fun r => ∀ b ∈ r, P b) :
    Ensures (collect f items) fun found => ∀ b ∈ found, P b := by
  intro found hfound b hb
  rw [(collect_eq_ok hfound).2] at hb
  obtain ⟨a, ha, hb⟩ := mem_filterMap.1 hb
  exact h a ha _ (join_toOption_eq_some_iff.1 hb) b rfl

end Parts

/-! ## Grounded edges and nodes

The notion itself, and how it is kept when emissions are put together. -/

/-- A tree node stands in the file. This is handed down from the root to the tree node for which
something is emitted, and places what is emitted. -/
def Site.Holds (s : Site) (t : Tree) : Prop :=
  t ∈ s.parsed.root.preorder

namespace Site.Holds

variable {s : Site} {t c : Tree}

theorem root : s.Holds s.parsed.root :=
  s.parsed.root.self_mem_preorder

theorem below (h : s.Holds t) (hc : c ∈ t.preorder) : s.Holds c :=
  Tree.mem_preorder_trans hc _ h

theorem of_mem_children (h : s.Holds t) (hc : c ∈ t.children) : s.Holds c :=
  h.below (Tree.mem_preorder_of_mem_children hc c.self_mem_preorder)

theorem child {kind : String} (h : s.Holds t) (hc : t.child? kind = some c) : s.Holds c :=
  h.of_mem_children (Tree.child?_mem hc)

end Site.Holds

/-- A node is in the language of the file that is read and stands where a tree node of the file
does. -/
structure Placed (s : Site) (n : Node) : Prop where
  language : n.language = s.language
  located : ∃ t, s.Holds t ∧ n.loc = s.locate t

namespace Placed

variable {s : Site} {n : Node}

theorem file (h : Placed s n) : n.loc.file = s.file := by
  obtain ⟨t, -, hloc⟩ := h.located
  rw [hloc]
  rfl

theorem lines (h : Placed s n) (hspan : s.parsed.root.Spanned) :
    1 ≤ n.loc.first ∧ n.loc.first ≤ n.loc.last := by
  obtain ⟨t, ht, hloc⟩ := h.located
  -- the bytes before the start are among the bytes before the stop
  have hsub : (s.parsed.bytes.take t.start).Sublist (s.parsed.bytes.take t.stop) :=
    take_sublist_take_left (hspan t ht)
  have hcount := hsub.count_le 10
  rw [hloc]
  simp only [Site.locate, Parsed.firstLine, Parsed.lastLine, Parsed.lineAt]
  omega

end Placed

/-- Where definitions start: at a known node or, in a language that has identifiers of its own for
that, at one of those. -/
def DefinesFrom (definers : Option (String → Prop)) (known : List Node) (id : String) : Prop :=
  match definers with
  | none => ∃ n ∈ known, n.id = id
  | some isDefiner => isDefiner id

theorem DefinesFrom.mono {definers : Option (String → Prop)} {known known' : List Node}
    {id : String}
    (hk : known ⊆ known') (h : DefinesFrom definers known id) : DefinesFrom definers known' id := by
  cases definers with
  | none =>
    obtain ⟨n, hn, hid⟩ := h
    exact ⟨n, hk hn, hid⟩
  | some isDefiner => exact h

/-- The ends of an edge are where its relation wants them. A call and a request start at one of the
nodes `known`, a definition where definitions start. A request leads to an endpoint and a definition
to a node among `here`. An import asks for nothing, and no other relation is read off a file. -/
def EdgeGrounded (definers : Option (String → Prop)) (known here : List Node) (d : Edge) : Prop :=
  match d.relation with
  | .calls => ∃ n ∈ known, n.id = d.source
  | .networksTo =>
    (∃ n ∈ known, n.id = d.source) ∧ ∃ n ∈ here, n.kind = .endpoint ∧ n.id = d.target
  | .defines => DefinesFrom definers known d.source ∧ ∃ n ∈ here, n.id = d.target
  | .imports => True
  | _ => False

theorem EdgeGrounded.mono {definers : Option (String → Prop)} {known known' here here' : List Node}
    {d : Edge} (hk : known ⊆ known') (hh : here ⊆ here') (h : EdgeGrounded definers known here d) :
    EdgeGrounded definers known' here' d := by
  unfold EdgeGrounded at h ⊢
  -- a call, a request, a definition, an import, and what is never read
  split at h
  · obtain ⟨n, hn, hid⟩ := h
    exact ⟨n, hk hn, hid⟩
  · obtain ⟨⟨n, hn, hid⟩, m, hm, htarget⟩ := h
    exact ⟨⟨n, hk hn, hid⟩, m, hh hm, htarget⟩
  · obtain ⟨hsource, m, hm, htarget⟩ := h
    exact ⟨hsource.mono hk, m, hh hm, htarget⟩
  · trivial
  · exact h

/-- An emission whose edges start at its own nodes or at nodes of `outer`, and whose nodes are
placed in the file. -/
structure Grounded (s : Site) (definers : Option (String → Prop)) (outer : List Node)
    (e : Emission) :
    Prop where
  placed : ∀ n ∈ e.nodes, Placed s n
  edges : ∀ d ∈ e.edges, EdgeGrounded definers (e.nodes ++ outer) e.nodes d

namespace Grounded

variable {s : Site} {definers : Option (String → Prop)} {outer : List Node}

theorem nil : Grounded s definers outer {} :=
  ⟨fun _ h => absurd h not_mem_nil, fun _ h => absurd h not_mem_nil⟩

theorem ofNode {n : Node} (hn : Placed s n) : Grounded s definers outer (.ofNode n) := by
  refine ⟨?_, fun _ h => absurd h not_mem_nil⟩
  intro m hm
  rw [mem_singleton.mp hm]
  exact hn

theorem weaken {outer' : List Node} {e : Emission} (h : Grounded s definers outer e)
    (hsub : outer ⊆ outer') : Grounded s definers outer' e := by
  refine ⟨h.placed, fun d hd => (h.edges d hd).mono ?_ (List.Subset.refl _)⟩
  exact append_subset.mpr
    ⟨subset_append_left _ _, List.Subset.trans hsub (subset_append_right _ _)⟩

/-- **The gluing lemma.** Emissions are appended, and the second may lean on the nodes of the first.
-/
theorem append {a b : Emission} (ha : Grounded s definers outer a)
    (hb : Grounded s definers (a.nodes ++ outer) b) : Grounded s definers outer (a ++ b) := by
  constructor
  · intro n hn
    rw [Emission.append_nodes, mem_append] at hn
    exact hn.elim (ha.placed n) (hb.placed n)
  · intro d hd
    rw [Emission.append_edges, mem_append] at hd
    rw [Emission.append_nodes]
    rcases hd with hd | hd
    · -- an edge of the first emission leans on the same nodes, of which there are now more
      refine (ha.edges d hd).mono ?_ (subset_append_left _ _)
      intro n
      simp only [mem_append]
      exact Or.imp_left Or.inl
    · -- what surrounds the second emission is what surrounds both, and the first
      refine (hb.edges d hd).mono ?_ (subset_append_right _ _)
      intro n
      simp only [mem_append]
      grind

theorem append_on {a b : Emission} {n : Node} (ha : Grounded s definers outer a) (hn : n ∈ a.nodes)
    (hb : Grounded s definers (n :: outer) b) : Grounded s definers outer (a ++ b) := by
  refine ha.append (hb.weaken ?_)
  exact cons_subset.mpr ⟨mem_append_left _ hn, subset_append_right _ _⟩

theorem append_same {a b : Emission} (ha : Grounded s definers outer a)
    (hb : Grounded s definers outer b) : Grounded s definers outer (a ++ b) :=
  ha.append (hb.weaken (subset_append_right _ _))

theorem ofCall {n : Node} {callee context : String} (hn : n ∈ outer) :
    Grounded s definers outer (.ofEdge (callEdge n.id callee context)) := by
  refine ⟨fun _ h => absurd h not_mem_nil, ?_⟩
  intro d hd
  rw [mem_singleton.mp hd]
  exact ⟨n, mem_append_right _ hn, rfl⟩

theorem ofImport {target context : String} :
    Grounded s definers outer (.ofEdge (s.importEdge target context)) := by
  refine ⟨fun _ h => absurd h not_mem_nil, ?_⟩
  intro d hd
  rw [mem_singleton.mp hd]
  trivial

theorem ofDefined {n : Node} {source : String} (hn : Placed s n)
    (hsource : DefinesFrom definers outer source) :
    Grounded s definers outer { nodes := [n], edges := [definesEdge source n.id] } := by
  constructor
  · intro m hm
    rw [mem_singleton.mp hm]
    exact hn
  · intro d hd
    rw [mem_singleton.mp hd]
    exact ⟨hsource.mono (subset_append_right _ _), n, mem_singleton_self n, rfl⟩

theorem ofMember {n c : Node} (hn : Placed s n) (hc : c ∈ outer) :
    Grounded s none outer { nodes := [n], edges := [definesEdge c.id n.id] } :=
  ofDefined hn ⟨c, hc, rfl⟩

theorem under {n : Node} {r : Reads Emission} {f : Emission → Reads Emission}
    (hr : Ensures r (Grounded s definers (n :: outer)))
    (hf : ∀ e, Grounded s definers (n :: outer) e → Ensures (f e) (Grounded s definers outer)) :
    Ensures (r >>= f) (Grounded s definers outer) :=
  .bind hr hf

theorem before {first : Emission} {rest : Reads Emission}
    (hrest : Ensures rest (Grounded s definers outer)) (hfirst : Grounded s definers outer first) :
    Ensures (rest >>= fun others => Pure.pure (first ++ others)) (Grounded s definers outer) :=
  .bind hrest fun _ hothers => .pure (hfirst.append_same hothers)

theorem gather {α : Type} {emit : α → Reads Emission} {items : List α}
    (h : ∀ a ∈ items, Ensures (emit a) (Grounded s definers outer)) :
    Ensures (Emission.gather emit items) (Grounded s definers outer) := by
  induction items with
  | nil => exact .ok nil
  | cons a rest ih =>
    have hrest := ih fun b hb => h b (mem_cons_of_mem _ hb)
    exact .bind (h a mem_cons_self) fun _ => before hrest

theorem walkBody {emit : Tree → Reads Emission} {t : Tree} {kind : String} (ht : s.Holds t)
    (h : ∀ u : Tree, s.Holds u → Ensures (emit u) (Grounded s definers outer)) :
    Ensures (walkBody emit (t.child? kind)) (Grounded s definers outer) := by
  cases hbody : t.child? kind with
  | none => exact .ok nil
  | some body => exact gather fun u hu => h u ((ht.child hbody).below hu)

end Grounded

section Shared

variable {s : Site} {definers : Option (String → Prop)} {outer : List Node}

theorem placed_symbol {t : Tree} (ht : s.Holds t) (kind : NodeKind) (name : String)
    (traits : Traits) (summary : String) : Placed s (s.symbol kind name t traits summary) :=
  ⟨rfl, t, ht, rfl⟩

theorem grounded_callAt {n : Node} (hn : n ∈ outer) (t : Tree) (calleeText : String) :
    Ensures (callAt s n.id t calleeText) (Grounded s definers outer) := by
  unfold callAt
  split
  · exact .ok .nil
  · dsimp only
    split
    · exact .after fun text => .pure (Grounded.ofCall hn)
    · exact .after fun text => .pure (Grounded.ofCall hn)

theorem grounded_routeEmission {n : Node} {t : Tree} (ht : s.Holds t) (hn : n ∈ outer)
    (route : Option String) : Grounded s none outer (routeEmission s n.id t route) := by
  cases route with
  | none => exact .nil
  | some route =>
    exact .ofMember ⟨rfl, t, ht, rfl⟩ hn

theorem grounded_request {n : Node} {t : Tree} (ht : s.Holds t) (hn : n ∈ outer)
    (url context : String) :
    Grounded s definers outer
      { nodes := [s.requestEndpoint url t]
        edges := [{ source := n.id, target := (s.requestEndpoint url t).id, relation := .networksTo,
                    isBridge := true, context := context }] } := by
  constructor
  · intro m hm
    rw [mem_singleton.mp hm]
    exact ⟨rfl, t, ht, rfl⟩
  · intro d hd
    rw [mem_singleton.mp hd]
    exact ⟨⟨n, mem_append_right _ hn, rfl⟩, _, mem_singleton_self _, rfl, rfl⟩

theorem grounded_calls {kind body : String} {n : Node} {t : Tree} (ht : s.Holds t) :
    Ensures (walkBody (callOfKind kind s n.id) (t.child? body))
      (Grounded s definers (n :: outer)) := by
  refine .walkBody ht fun u _ => ?_
  unfold callOfKind
  split
  · split
    · exact .after fun calleeText => grounded_callAt mem_cons_self u calleeText
    · exact .pure .nil
  · exact .pure .nil

theorem grounded_requests {f : RequestForm} {body : String} {n : Node} {t : Tree} (ht : s.Holds t) :
    Ensures (walkBody (f.callEmission s n.id) (t.child? body))
      (Grounded s definers (n :: outer)) := by
  refine .walkBody ht fun u hu => ?_
  have hn : n ∈ n :: outer := mem_cons_self
  have hrequest (calleeText : String) :
      Ensures (f.requestEmission s n.id u calleeText) (Grounded s definers (n :: outer)) := by
    unfold RequestForm.requestEmission
    split
    · exact .pure .nil
    · refine .after fun text => ?_
      dsimp only
      split
      · exact .pure .nil
      · exact .pure (grounded_request hu hn _ _)
  unfold RequestForm.callEmission
  split
  · split
    · refine .after fun calleeText => .keep (grounded_callAt hn u calleeText) fun call hcall => ?_
      dsimp only
      split
      · exact .keep (hrequest calleeText) fun request hrequest => .pure (hcall.append_same hrequest)
      · exact .keep (.ok .nil) fun request hrequest => .pure (hcall.append_same hrequest)
    · exact .pure .nil
  · exact .pure .nil

theorem ensures_commentNode {t : Tree} (ht : s.Holds t) (symbols : List Node) :
    Ensures (commentNode s symbols t) fun r => ∀ n ∈ r, Placed s n := by
  unfold commentNode
  refine .after fun raw => ?_
  dsimp only
  split
  · exact .pure fun _ h => by cases h
  · -- the comment stands where it was found, whatever symbol it belongs to
    refine .pure fun n hn => ?_
    rw [← Option.some.inj hn]
    exact ⟨rfl, t, ht, rfl⟩

/-- Comments add nodes and no edges, so they ground nothing and disturb nothing. -/
theorem grounded_withComments {kinds : List String} {e : Emission}
    (he : Grounded s definers outer e) :
    Ensures (withComments s kinds e) (Grounded s definers outer) := by
  have hcomments : Ensures (comments s kinds e.nodes) fun found => ∀ n ∈ found, Placed s n := by
    refine ensures_collect fun t ht => ensures_commentNode ?_ e.nodes
    exact (mem_commentTrees.mp ht).1
  refine .bind hcomments fun found hfound => .pure ?_
  exact he.append_same ⟨hfound, fun _ h => absurd h not_mem_nil⟩

theorem ensures_withComments (s : Site) (kinds : List String) (e : Emission) :
    Ensures (withComments s kinds e) fun e' =>
      ∃ found : List Node, (∀ n ∈ found, n.kind = .comment) ∧ e' = e ++ { nodes := found } := by
  have hcomment (t : Tree) :
      Ensures (commentNode s e.nodes t) fun r => ∀ n ∈ r, n.kind = .comment := by
    unfold commentNode
    refine .after fun raw => ?_
    dsimp only
    split
    · exact .pure fun _ h => by cases h
    · refine .pure fun n hn => ?_
      rw [← Option.some.inj hn]
  exact .bind (ensures_collect fun t _ => hcomment t) fun found hfound => .pure ⟨found, hfound, rfl⟩

end Shared

section RouteEmission

variable {s : Site} {owner : String} {t : Tree} {route : Option String}

theorem mem_nodes_routeEmission_iff {n : Node} :
    n ∈ (routeEmission s owner t route).nodes ↔ ∃ r, route = some r ∧ n = s.routeEndpoint r t := by
  cases route with
  | none => simp [routeEmission]
  | some r => simp [routeEmission]

theorem mem_edges_routeEmission_iff {d : Edge} :
    d ∈ (routeEmission s owner t route).edges ↔
      ∃ r, route = some r ∧ d = definesEdge owner (s.routeEndpoint r t).id := by
  cases route with
  | none => simp [routeEmission]
  | some r => simp [routeEmission]

end RouteEmission

/-! ## Legible files

Reading fails at a span that is no text, and nowhere else in what languages share. -/

def Site.Legible (s : Site) : Prop :=
  ∀ t, s.Holds t → Returns (s.parsed.text t)

theorem Site.legible_of_all {s : Site}
    (h : s.parsed.root.preorder.all (fun t => (s.parsed.text t).toOption.isSome)) : s.Legible :=
  fun t ht => exists_eq_ok (all_eq_true.1 h t ht)

namespace Returns

variable {s : Site} {t : Tree}

theorem childText (hs : s.Legible) (ht : s.Holds t) (kind : String) :
    Returns (s.parsed.childText t kind) := by
  unfold Parsed.childText
  split
  · next c hc => exact hs c (ht.child hc)
  · exact ok ""

theorem callAt (hs : s.Legible) (ht : s.Holds t) (source calleeText : String) :
    Returns (callAt s source t calleeText) := by
  unfold Extract.callAt
  split
  · exact ok _
  · dsimp only
    split
    · exact bind (ok _) fun _ => pure _
    · exact bind (hs t ht) fun _ => pure _

theorem walkBody {emit : Tree → Reads Emission} (ht : s.Holds t)
    (h : ∀ u, s.Holds u → Returns (emit u))
    (kind : String) : Returns (walkBody emit (t.child? kind)) := by
  cases hbody : t.child? kind with
  | none => exact ok _
  | some body => exact gather fun u hu => h u ((ht.child hbody).below hu)

theorem calls (hs : s.Legible) (ht : s.Holds t) (kind source body : String) :
    Returns (Extract.walkBody (callOfKind kind s source) (t.child? body)) := by
  refine walkBody ht (fun u hu => ?_) body
  unfold callOfKind
  split
  · split
    · next callee hcallee =>
      have hheld := hu.of_mem_children (mem_of_mem_head? hcallee)
      exact bind (hs callee hheld) fun text => callAt hs hu source text
    · exact pure _
  · exact pure _

theorem commentNode {symbols : List Node} (h : Returns (s.parsed.text t)) :
    Returns (commentNode s symbols t) := by
  refine bind h fun raw => ?_
  dsimp only
  split
  · exact pure _
  · exact pure _

theorem withComments (hs : s.Legible) (kinds : List String) (e : Emission) :
    Returns (withComments s kinds e) :=
  bind (collect fun u hu => commentNode (hs u (mem_commentTrees.mp hu).1)) fun _ => pure _

end Returns

/-- An emission without nodes, whose edges are calls. -/
structure OnlyCalls (e : Emission) : Prop where
  nodes : e.nodes = []
  calls : ∀ d ∈ e.edges, d.relation = .calls

namespace OnlyCalls

theorem nil : OnlyCalls {} :=
  ⟨rfl, fun _ h => absurd h not_mem_nil⟩

theorem callAt (s : Site) (source : String) (t : Tree) (calleeText : String) :
    Ensures (callAt s source t calleeText) OnlyCalls := by
  have hcall (context : String) (callee : String) : OnlyCalls
      (.ofEdge (callEdge source callee context)) :=
    ⟨rfl, fun d hd => by rw [mem_singleton.mp hd]; rfl⟩
  unfold Extract.callAt
  split
  · exact .ok nil
  · dsimp only
    split
    · exact .after fun text => .pure (hcall _ _)
    · exact .after fun text => .pure (hcall _ _)

theorem walkBody {emit : Tree → Reads Emission} (h : ∀ t, Ensures (emit t) OnlyCalls)
    (body : Option Tree) : Ensures (walkBody emit body) OnlyCalls := by
  cases body with
  | none => exact .ok nil
  | some b =>
    rw [Extract.walkBody]
    induction b.preorder with
    | nil => exact .ok nil
    | cons t rest ih =>
      refine .bind (h t) fun first hfirst => .bind ih fun others hothers =>
        .pure ⟨?_, fun d hd => ?_⟩
      · rw [Emission.append_nodes, hfirst.nodes, hothers.nodes, append_nil]
      · exact (mem_append.mp hd).elim (hfirst.calls d) (hothers.calls d)

theorem ofBody (s : Site) (kind source : String) (body : Option Tree) :
    Ensures (Extract.walkBody (callOfKind kind s source) body) OnlyCalls := by
  refine walkBody (fun t => ?_) body
  unfold callOfKind
  split
  · split
    · exact .after fun text => callAt s source t text
    · exact .pure nil
  · exact .pure nil

end OnlyCalls

end Extract

end CodeAtlas
