import CodeAtlas.Proofs.Leading
import CodeAtlas.Proofs.OrderedMap
import CodeAtlas.Proofs.Running

/-!
# Points that go into a collection by batches

Symbols get their vectors by batches, are put together with them again and go into their collection
by batches. None of this shows in the collection: it gains one point for each symbol that is no
comment, with the vector of the symbol's own text, in the order of the symbols.
-/

namespace CodeAtlas.Vector

variable {s : Store} {name : String}

def Store.collection (s : Store) (name : String) : List Point :=
  (s.collections.get? name).getD []

theorem Store.collection_change (other : String) (f : List Point → List Point) :
    (s.change name f).collection other = if other = name then f (s.collection name)
      else s.collection other := by
  unfold Store.collection Store.change
  rw [OrderedMap.get?_alter]
  split <;> rfl

/-- The store refuses the `j`-th upsert from now on, counted from one. -/
def Store.Refuses (s : Store) (j : Nat) : Prop :=
  s.fails .upsert (s.made.count .upsert + j) = true

def Store.put (s : Store) (name : String) (points : List Point) : Store :=
  Store.change { s with made := s.made ++ [.upsert] } name fun old => points.foldl Store.putPoint
    old

theorem Store.refuses_put (points : List Point) (j : Nat) :
    (s.put name points).Refuses j ↔ s.Refuses (j + 1) := by
  have hcount : (s.put name points).made.count .upsert = s.made.count .upsert + 1 := by
    show (s.made ++ [Call.upsert]).count .upsert = _
    rw [List.count_append, List.count_singleton_self]
  show s.fails .upsert ((s.put name points).made.count .upsert + j) ↔ _
  rw [hcount, Nat.add_right_comm, Nat.add_assoc]
  rfl

theorem run_call_upsert (s : Store) : (call .upsert).run.run s =
    (if s.fails .upsert (s.made.count .upsert + 1) then .error (.storeFailed "upsert") else .ok (),
      { s with made := s.made ++ [.upsert] }) := by
  rw [call, run_bind_ok (run_modify _ s), run_bind_ok (run_get _)]
  dsimp only
  rw [List.count_append, List.count_singleton_self]
  split <;> rfl

theorem run_upsert_accepted (h : ¬s.Refuses 1) (name : String) (points : List Point) :
    (upsert name points).run.run s = (.ok (), s.put name points) := by
  have hcall := run_call_upsert s
  unfold Store.Refuses at h
  rw [if_neg h] at hcall
  rw [upsert, run_bind_ok hcall, run_modify]
  rfl

/-- A refused upsert leaves nothing but the count of calls. -/
theorem run_upsert_refused (h : s.Refuses 1) (points : List Point) :
    (upsert name points).run.run s = (.error (.storeFailed "upsert"),
      { s with made := s.made ++ [.upsert] }) := by
  have hcall := run_call_upsert s
  unfold Store.Refuses at h
  rw [if_pos h] at hcall
  rw [upsert, run_bind_error hcall]

/-! ## Batch after batch

What was put in before a refusal stays. -/

/-- One collection gained these points, put in one after the other, and the others are what they
were. -/
structure Store.Gained (s : Store) (name : String) (points : List Point) (s' : Store) : Prop where
  put : s'.collection name = points.foldl Store.putPoint (s.collection name)
  others : ∀ other, other ≠ name → s'.collection other = s.collection other

theorem Store.gained_nil (s : Store) (name : String) : s.Gained name [] s :=
  ⟨rfl, fun _ _ => rfl⟩

theorem Store.Gained.after_put {points more : List Point} {s' : Store}
    (h : (s.put name points).Gained name more s') :
    s.Gained name (points ++ more) s' where
  put := by
    rw [h.put, Store.put, Store.collection_change, if_pos rfl, List.foldl_append]
    rfl
  others := by
    intro other hne
    rw [h.others other hne, Store.put, Store.collection_change, if_neg hne]
    rfl

/-- What is there after the last batch. -/
theorem run_upserts_accepted (name : String) {batches : List (List Point)}
    (h : ∀ k < batches.length, ¬s.Refuses (k + 1)) :
    ∃ s', (batches.forM (upsert name)).run.run s = (.ok (), s') ∧ s'.fails = s.fails ∧
      s'.rank = s.rank ∧ s.Gained name batches.flatten s' := by
  induction batches generalizing s with
  | nil => exact ⟨s, rfl, rfl, rfl, s.gained_nil name⟩
  | cons batch batches ih =>
    have hfirst := run_upsert_accepted (h 0 (by simp)) name batch
    have hrest : ∀ k < batches.length, ¬(s.put name batch).Refuses (k + 1) := by
      intro k hk hrefused
      exact h (k + 1) (by simpa using hk) ((Store.refuses_put batch (k + 1)).1 hrefused)
    obtain ⟨s', hrun, hfails, hrank, hgained⟩ := ih hrest
    exact ⟨s', (run_bind_ok hfirst).trans hrun, hfails, hrank, hgained.after_put⟩

/-- What is there after a batch that the store refuses: this one leaves nothing, and none is tried
after it. -/
theorem run_upserts_refused (name : String) {batches : List (List Point)} {k : Nat}
    (hk : k < batches.length)
    (hrefused : s.Refuses (k + 1)) (haccepted : ∀ i < k, ¬s.Refuses (i + 1)) :
    ∃ s', (batches.forM (upsert name)).run.run s = (.error (.storeFailed "upsert"), s') ∧
      s.Gained name (batches.take k).flatten s' := by
  induction batches generalizing s k with
  | nil => cases hk
  | cons batch batches ih =>
    cases k with
    | zero => exact ⟨_, run_bind_error (run_upsert_refused hrefused batch), ⟨rfl, fun _ _ => rfl⟩⟩
    | succ k =>
      have hfirst := run_upsert_accepted (haccepted 0 (Nat.succ_pos k)) name batch
      obtain ⟨s', hrun, hgained⟩ := ih (s := s.put name batch) (Nat.lt_of_succ_lt_succ hk)
        ((Store.refuses_put batch (k + 1)).2 hrefused) fun i hi hi' =>
          haccepted (i + 1) (Nat.succ_lt_succ hi) ((Store.refuses_put batch (i + 1)).1 hi')
      exact ⟨s', (run_bind_ok hfirst).trans hrun, hgained.after_put⟩

/-- One point for each symbol that is no comment, with the vector of its own text. -/
def pointsFor (embedding : String → List Float) (nodes : List Node) : List Point :=
  (nodes.filter fun n => !n.isComment).map fun n =>
    ⟨pointId n.id, vectorJson (embedding (symbolText n)), symbolPayload n⟩

theorem length_pointsFor (embedding : String → List Float) (nodes : List Node) :
    (pointsFor embedding nodes).length = nodes.countP fun n => !n.isComment := by
  rw [pointsFor, List.length_map, List.countP_eq_length_filter]

variable {size : Nat} {encode : List String → List (List Float)} {embedding : String → List Float}

section Model

variable (hsize : 0 < size) (hencode : ∀ texts, encode texts = texts.map embedding)

include hsize hencode

theorem embed_eq_map (texts : List String) : embed size encode texts = texts.map embedding := by
  rw [embed, funext hencode, List.flatMap_def, ← List.map_flatten, flatten_pieces hsize]

theorem zipWith_symbolPoint_embed (symbols : List Node) :
    List.zipWith symbolPoint symbols (embed size encode (symbols.map symbolText)) =
      symbols.map fun n => symbolPoint n (embedding (symbolText n)) := by
  rw [embed_eq_map hsize hencode, List.map_map, List.zipWith_map_right, List.zipWith_self]
  rfl

theorem run_keepBatches (c : Catalog) (nodes : List Node) : c.keepBatches size encode nodes = do
      (pieces size (pointsFor embedding nodes)).forM (upsert (c.name .symbols))
      return nodes.countP fun n => !n.isComment := by
  unfold Catalog.keepBatches
  dsimp only
  rw [zipWith_symbolPoint_embed hsize hencode, ← length_pointsFor embedding]
  rfl

end Model

/-- **Batches do not show.** Symbols are kept by batches of any size, with a model that gives each
text a vector of its own. If no upsert is refused, their collection gains one point for each symbol
that is no comment, with the number of the symbol, its values and the vector of its text, in the
order of the symbols, and the answer is how many these are. If the `k + 1`-st upsert is the first
one that is refused, the collection gains the points of the `k` batches before it, and the refusal
is passed on. -/
theorem keepBatches_in_order (hsize : 0 < size)
    (hencode : ∀ texts, encode texts = texts.map embedding) (c : Catalog) (nodes : List Node)
    (s : Store) :
    ((∀ k, k * size < (pointsFor embedding nodes).length → ¬s.Refuses (k + 1)) →
      ∃ s', (c.keepBatches size encode nodes).run.run s =
          (.ok (nodes.countP fun n => !n.isComment), s') ∧
        s.Gained (c.name .symbols) (pointsFor embedding nodes) s') ∧
    ∀ k, k * size < (pointsFor embedding nodes).length → s.Refuses (k + 1) →
      (∀ i < k, ¬s.Refuses (i + 1)) →
      ∃ s', (c.keepBatches size encode nodes).run.run s = (.error (.storeFailed "upsert"), s') ∧
        s.Gained (c.name .symbols) ((pointsFor embedding nodes).take (k * size)) s' := by
  rw [run_keepBatches hsize hencode]
  constructor
  · intro haccepted
    obtain ⟨s', hrun, -, -, hgained⟩ := run_upserts_accepted (c.name .symbols) fun k hk =>
      haccepted k ((lt_length_pieces_iff hsize).1 hk)
    rw [flatten_pieces hsize] at hgained
    exact ⟨s', by rw [run_bind_ok hrun]; rfl, hgained⟩
  · intro k hk hrefused haccepted
    obtain ⟨s', hrun, hgained⟩ := run_upserts_refused (c.name .symbols)
      ((lt_length_pieces_iff hsize).2 hk) hrefused haccepted
    rw [flatten_take_pieces hsize] at hgained
    exact ⟨s', run_bind_error hrun, hgained⟩

/-- A store without collections, which keeps points in their order. -/
def Store.unranked : Store where
  vectorOf _ := []
  rank _ points := points.map (⟨·, .null⟩)

def plainFunction (name : String) : Node where
  id := name
  kind := .function
  name := name
  loc := ⟨"a.py", 1, 1⟩
  language := "python"

/-- Three functions and a comment go by twos into a store that refuses the second upsert: the first
two are there. -/
theorem keepBatches_in_order_refused :
    let nodes := [plainFunction "f", { plainFunction "note" with kind := .comment },
      plainFunction "g", plainFunction "h"]
    let s : Store := { Store.unranked with fails := fun k n => k == .upsert && n == 2 }
    ∃ s', (Catalog.keepBatches ⟨"hammy"⟩ 2 (·.map s.vectorOf) nodes).run.run s =
      (.error (.storeFailed "upsert"), s') ∧
      s.Gained "hammy_code_symbols" (pointsFor s.vectorOf [plainFunction "f", plainFunction "g"])
        s' := by
  intro nodes s
  exact (keepBatches_in_order (by decide) (fun _ => rfl) ⟨"hammy"⟩ nodes s).2 1 (by decide) rfl (by
    intro i hi
    obtain rfl : i = 0 := by omega
    exact Bool.false_ne_true)

end CodeAtlas.Vector
