import CodeAtlas.Proofs.BareNames
import CodeAtlas.Proofs.BlastRadius
import CodeAtlas.Proofs.DiffSections
import CodeAtlas.Proofs.Leading

/-!
# Changed definitions in the index

The head of a definition gives the bare name of what it defines, while the index holds methods under
names that begin with their class.
-/

namespace CodeAtlas.Change

open List
open Text (isWord lower)

variable {name line : String} {cs rest : List Char}

/-! ## Names are words

Every way to read a name off a line ends with a word. -/

/-- Word characters only. -/
def WordText (s : String) : Prop :=
  ∀ c ∈ s.toList, isWord c = true

theorem isWord_of_isNameStart {c : Char} (h : isNameStart c) : isWord c := by
  rcases Bool.or_eq_true_iff.1 h with halpha | hline
  · have hascii : c.toNat < 128 := by
      rcases Bool.or_eq_true_iff.1 halpha with hupper | hlower
      · have hle : c.val ≤ 'Z'.val := (of_decide_eq_true hupper).2
        exact Nat.lt_of_le_of_lt (UInt32.le_iff_toNat_le.1 hle) (by decide)
      · have hle : c.val ≤ 'z'.val := of_decide_eq_true (Bool.and_eq_true_iff.1 hlower).2
        exact Nat.lt_of_le_of_lt (UInt32.le_iff_toNat_le.1 hle) (by decide)
    rw [isWord, if_pos hascii, Char.isAlphanum, halpha]
    rfl
  · rw [eq_of_beq hline]
    decide

theorem name?_spec (h : name? cs = some (name, rest)) :
    cs = name.toList ++ rest ∧ WordText name := by
  unfold name? at h
  split at h
  · next c tail =>
    dsimp only at h
    split at h
    · next hstart =>
      obtain ⟨rfl, rfl⟩ := Prod.mk.inj (Option.some.inj h)
      have hc := isWord_of_isNameStart (Bool.and_eq_true_iff.1 hstart).1
      refine ⟨?_, fun d hd => ?_⟩
      · rw [String.toList_ofList, cons_append, takeWhile_append_dropWhile]
      · rw [String.toList_ofList] at hd
        rcases mem_cons.1 hd with rfl | hd
        · exact hc
        · exact mem_takeWhile_imp hd
    · cases h
  · cases h

theorem WordText.of_isName (h : isName name) : WordText name := by
  unfold isName at h
  split at h
  · next found rest hfound =>
    obtain ⟨hchars, hword⟩ := name?_spec hfound
    rw [List.isEmpty_iff.1 h, append_nil] at hchars
    rwa [String.toList_inj.1 hchars]
  · cases h

theorem WordText.of_bind {taken : Option (List Char)} {skip : List Char → List Char}
    (h : (taken.bind fun rest => (name? (skip rest)).bind fun found => some found.1) = some name) :
    WordText name := by
  obtain ⟨rest, -, h⟩ := Option.bind_eq_some_iff.1 h
  obtain ⟨⟨found, after⟩, hfound, h⟩ := Option.bind_eq_some_iff.1 h
  cases h
  exact (name?_spec hfound).2

theorem WordText.of_assigned (h : assignedFunctionName? cs = some name) : WordText name := by
  obtain ⟨rest, -, h⟩ := Option.bind_eq_some_iff.1 h
  obtain ⟨⟨found, after⟩, hfound, h⟩ := Option.bind_eq_some_iff.1 h
  obtain ⟨value, -, h⟩ := Option.bind_eq_some_iff.1 h
  dsimp only at h
  split at h
  · cases h
    exact (name?_spec hfound).2
  · cases h

theorem WordText.of_modifiedMethod (h : modifiedMethodName? cs = some name) : WordText name := by
  obtain ⟨rest, -, h⟩ := exists_of_findSome?_eq_some h
  obtain ⟨⟨found, after⟩, hfound, h⟩ := Option.bind_eq_some_iff.1 h
  obtain ⟨next, -, h⟩ := Option.bind_eq_some_iff.1 h
  split at h
  · cases h
    exact (name?_spec hfound).2
  · cases h

theorem WordText.of_definedName? (h : definedName? line = some name) : WordText name := by
  obtain ⟨head, hhead, h⟩ := exists_of_findSome?_eq_some h
  simp only [mem_cons, not_mem_nil, or_false] at hhead
  -- five of the seven heads end with the name; two look at what follows it
  rcases hhead with rfl | rfl | rfl | rfl | rfl | rfl | rfl
  · exact .of_bind h
  · exact .of_bind h
  · exact .of_bind h
  · exact .of_assigned h
  · exact .of_bind h
  · exact .of_bind h
  · exact .of_modifiedMethod h

/-- What a line of a diff may name: as the header of a hunk, or as a changed line. -/
def namedBy (line : String) : List String :=
  hunkNames line ++ (definedName? (Text.skip 1 line)).toList

/-- Whatever a line names is a word, so no separator is in it. -/
theorem WordText.of_namedBy (h : name ∈ namedBy line) : WordText name := by
  rcases mem_append.1 h with h | h
  · unfold hunkNames at h
    split at h
    · exact .of_isName (mem_filter.1 h).2
    · exact absurd h not_mem_nil
  · exact .of_definedName? (Option.mem_toList.1 h)

def DiffReading.names (r : DiffReading) : List String :=
  r.files.flatMap (·.change.symbols)

variable {r : DiffReading}

theorem symbols_addSymbols_subset (f : FileChange) (names : List String) :
    (f.addSymbols names).symbols ⊆ f.symbols ++ names := by
  induction names generalizing f with
  | nil => exact subset_append_left _ _
  | cons s names ih =>
    intro x hx
    have hadd : (f.addSymbol s).symbols ⊆ f.symbols ++ [s] := by
      unfold FileChange.addSymbol
      split
      · exact subset_append_left _ _
      · exact List.Subset.refl _
    rcases mem_append.1 (ih (f.addSymbol s) hx) with hx | hx
    · rw [← singleton_append, ← append_assoc]
      exact mem_append_left _ (hadd hx)
    · exact mem_append_right _ (mem_cons_of_mem s hx)

theorem mem_names_map_current {g : FileSection → FileSection} {new : List String}
    (h : name ∈ ({ r with current := r.current.map g } : DiffReading).names)
    (hg : ∀ s, (g s).change.symbols ⊆ s.change.symbols ++ new) : name ∈ r.names ∨ name ∈ new := by
  obtain ⟨s, hs, hname⟩ := mem_flatMap.1 h
  rcases mem_append.1 hs with hs | hs
  · exact .inl (mem_flatMap.2 ⟨s, mem_append_left _ hs, hname⟩)
  · obtain ⟨old, hold, rfl⟩ := Option.map_eq_some_iff.1 (Option.mem_toList.1 hs)
    rcases mem_append.1 (hg old hname) with hname | hname
    · exact .inl (mem_flatMap.2 ⟨old, mem_append_right _ (Option.mem_toList.2 hold), hname⟩)
    · exact .inr hname

theorem mem_names_openSection {path : String} (h : name ∈ (r.openSection path).names) :
    name ∈ r.names := by
  obtain ⟨s, hs, hname⟩ := mem_flatMap.1 h
  rcases mem_append.1 hs with hs | hs
  · exact mem_flatMap.2 ⟨s, hs, hname⟩
  · obtain rfl := Option.some.inj (Option.mem_toList.1 hs)
    exact absurd hname not_mem_nil

theorem mem_names_step (h : name ∈ (r.step line).names) : name ∈ r.names ∨ name ∈ namedBy line := by
  have hadded {names : List String} (hnames : names ⊆ namedBy line)
      (h : name ∈ (r.onCurrent (·.addSymbols names)).names) : name ∈ r.names ∨
        name ∈ namedBy line :=
    (mem_names_map_current h fun s => symbols_addSymbols_subset s.change names).imp_right
      fun hmem => hnames hmem
  unfold DiffReading.step at h
  dsimp only at h
  -- one case for each kind of line; only hunk headers and changed lines name symbols
  split at h
  · exact .inl h
  split at h
  · split at h
    · exact mem_names_map_current h fun s => subset_append_left s.change.symbols _
    · split at h
      · exact .inl (mem_names_openSection h)
      · exact .inl h
  split at h
  · exact .inl h
  split at h
  · exact mem_names_map_current h fun s => subset_append_left s.change.symbols _
  split at h
  · exact mem_names_map_current h fun s => subset_append_left s.change.symbols _
  split at h
  · exact hadded (subset_append_left _ _) h
  split at h
  · split at h
    · next found hfound =>
      have hnamed : [found] ⊆ namedBy line := by
        rw [namedBy, hfound]
        exact subset_append_right _ _
      exact hadded hnamed h
    · exact .inl h
  · exact .inl h

theorem mem_names_foldl {lines : List String} (h : name ∈ (lines.foldl DiffReading.step r).names) :
    name ∈ r.names ∨ ∃ line ∈ lines, name ∈ namedBy line := by
  induction lines generalizing r with
  | nil => exact .inl h
  | cons l lines ih =>
    rcases ih h with h | ⟨line, hline, hname⟩
    · exact (mem_names_step h).imp_right fun hname => ⟨l, mem_cons_self, hname⟩
    · exact .inr ⟨line, mem_cons_of_mem l hline, hname⟩

variable {diff s : String} {nodes : List Node} {edges : List Edge} {depth : Int}
  {symbols : List String}

theorem symbols_analyze :
    (analyze diff nodes edges depth).symbols = distinct ((filesOf diff).flatMap (·.symbols)) := by
  rw [analyze]

/-- Every symbol of a report was read off one line of the diff. -/
theorem mem_symbols_analyze (h : name ∈ (analyze diff nodes edges depth).symbols) :
    ∃ line ∈ Text.lines diff, name ∈ namedBy line := by
  rw [symbols_analyze] at h
  obtain ⟨f, hf, hname⟩ := mem_flatMap.1 (mem_distinct.1 h)
  obtain ⟨s, hs, hf⟩ := mem_flatMap.1 hf
  obtain rfl := eq_of_mem_replicate hf
  have hread : name ∈ ((Text.lines diff).foldl DiffReading.step {}).names :=
    mem_flatMap.2 ⟨s, hs, hname⟩
  exact (mem_names_foldl hread).resolve_left not_mem_nil

/-! ## The index

Symbols are looked up by the names that the index has for them. -/

theorem unindexed_mem_addNode_iff (r : ImpactReading) (n : Node) :
    .unindexed s ∈ (r.addNode nodes edges depth n).impacts ↔ .unindexed s ∈ r.impacts := by
  unfold ImpactReading.addNode
  split
  · exact Iff.rfl
  · simp

theorem unindexed_mem_addSymbol_iff (r : ImpactReading) (symbol : String) :
    .unindexed s ∈ (r.addSymbol nodes edges depth symbol).impacts ↔
      .unindexed s ∈ r.impacts ∨ s = symbol ∧ nodesNamed nodes s = [] := by
  unfold ImpactReading.addSymbol
  split
  · next hnone =>
    rw [mem_append, mem_singleton, Impact.unindexed.injEq]
    refine or_congr_right ⟨fun heq => ⟨heq, heq ▸ hnone⟩, And.left⟩
  · next hsome =>
    have hfold (ms : List Node) (r : ImpactReading) :
        .unindexed s ∈ (ms.foldl (ImpactReading.addNode nodes edges depth) r).impacts ↔
          .unindexed s ∈ r.impacts := by
      induction ms generalizing r with
      | nil => exact Iff.rfl
      | cons m ms ih => exact (ih _).trans (unindexed_mem_addNode_iff r m)
    rw [hfold, or_iff_left]
    rintro ⟨rfl, hnone⟩
    exact hsome hnone

theorem unindexed_mem_foldl_iff (r : ImpactReading) :
    .unindexed s ∈ (symbols.foldl (ImpactReading.addSymbol nodes edges depth) r).impacts ↔
      .unindexed s ∈ r.impacts ∨ s ∈ symbols ∧ nodesNamed nodes s = [] := by
  induction symbols generalizing r with
  | nil => simp
  | cons symbol symbols ih =>
    rw [foldl_cons, ih, unindexed_mem_addSymbol_iff, or_assoc, ← or_and_right, mem_cons]

theorem unindexed_mem_impactOf_iff : .unindexed s ∈ impactOf nodes edges depth symbols ↔
    s ∈ symbols ∧ ∀ m ∈ nodes, lower m.name ≠ lower s := by
  rw [impactOf, mem_mergeSort, unindexed_mem_foldl_iff, or_iff_right not_mem_nil, nodesNamed,
    filter_eq_nil_iff]
  simp only [beq_iff_eq, ne_eq]

theorem impacts_analyze : (analyze diff nodes edges depth).impacts =
    impactOf nodes edges depth (analyze diff nodes edges depth).symbols := by
  rw [analyze]

/-- **Changed definitions in the index.** Let a changed symbol be the bare name of a node. The node
has an entry only if its name in the index is a bare one, and if it is, there is an entry under its
identifier. So, where identifiers are distinct, exactly the nodes with bare names are found. The
symbol is reported as unknown exactly if it is the bare name of qualified names only. -/
theorem changed_found_iff (diff : String) (nodes : List Node) (edges : List Edge) (depth : Int)
    {s : String} (hs : s ∈ (analyze diff nodes edges depth).symbols) {n : Node} (hn : n ∈ nodes)
    (hname : lower (bareName n.name) = lower s) :
    ((∃ callers, .indexed n callers ∈ (analyze diff nodes edges depth).impacts) →
      bareName n.name = n.name) ∧
    (bareName n.name = n.name →
      ∃ m callers, .indexed m callers ∈ (analyze diff nodes edges depth).impacts ∧ m.id = n.id) ∧
    ((nodes.map (·.id)).Nodup →
      ((∃ callers, .indexed n callers ∈ (analyze diff nodes edges depth).impacts) ↔
        bareName n.name = n.name)) ∧
    (.unindexed s ∈ (analyze diff nodes edges depth).impacts ↔
      ∀ m ∈ nodes, lower (bareName m.name) = lower s → bareName m.name ≠ m.name) := by
  rw [impacts_analyze]
  -- lower case keeps separators, and a symbol of a diff has none
  have hbare {m : Node} {s' : String} (hs' : s' ∈ (analyze diff nodes edges depth).symbols)
      (hm : lower m.name = lower s') : bareName m.name = m.name := by
    obtain ⟨line, -, hnamed⟩ := mem_symbols_analyze hs'
    exact bareName_eq_self_of_lower_eq (WordText.of_namedBy hnamed) hm
  generalize (analyze diff nodes edges depth).symbols = symbols at hs hbare ⊢
  have honly : (∃ callers, .indexed n callers ∈ impactOf nodes edges depth symbols) →
      bareName n.name = n.name := by
    rintro ⟨callers, hentry⟩
    obtain ⟨-, s', hs', hlower⟩ :=
      mem_asked_iff.1 (mem_of_find?_eq_some (indexed_mem_impactOf_iff.1 hentry).1)
    exact hbare hs' hlower
  have hfound : bareName n.name = n.name →
      ∃ m callers, .indexed m callers ∈ impactOf nodes edges depth symbols ∧ m.id = n.id := by
    intro hself
    rw [hself] at hname
    exact exists_indexed_iff.2 ⟨n, hn, rfl, s, hs, hname⟩
  refine ⟨honly, hfound, fun hids => ⟨honly, fun hself => ?_⟩, ?_⟩
  · obtain ⟨m, callers, hentry, hid⟩ := hfound hself
    have hm := (mem_asked_iff.1 (mem_of_find?_eq_some (indexed_mem_impactOf_iff.1 hentry).1)).1
    rw [inj_on_of_nodup_map hids hm hn hid] at hentry
    exact ⟨callers, hentry⟩
  · rw [unindexed_mem_impactOf_iff, and_iff_right hs]
    refine forall₂_congr fun m hm => ⟨fun hne hlower hself => ?_, fun hqualified hlower => ?_⟩
    · rw [hself] at hlower
      exact hne hlower
    · have hself := hbare hs hlower
      exact hqualified (by rw [hself, hlower]) hself

def cartTotal : Node :=
  { id := "m", kind := .method, name := "Cart.total",
    loc := { file := "cart.py", first := 2, last := 3 }
    language := "python" }

def plainTotal : Node :=
  { id := "f", kind := .function, name := "total",
    loc := { file := "shop.py", first := 1, last := 2 }
    language := "python" }

def taxDiff : String :=
  "--- a/cart.py\n+++ b/cart.py\n@@ -2 +2 @@\n-    def total(self):\n+    def total(self, tax):\n"

/-- The change of a method is taken for that of a function elsewhere or, if there is none, of an
unknown symbol. -/
theorem changed_found_iff_total :
    (¬ ∃ callers, .indexed cartTotal callers ∈ (analyze taxDiff [cartTotal, plainTotal] []
      2).impacts) ∧
    (∃ callers, .indexed plainTotal callers ∈ (analyze taxDiff [cartTotal, plainTotal] []
      2).impacts) ∧
    .unindexed "total" ∈ (analyze taxDiff [cartTotal] [] 2).impacts := by
  have hs (nodes : List Node) : "total" ∈ (analyze taxDiff nodes [] 2).symbols := by
    rw [symbols_analyze]
    decide +kernel
  have hmethod : lower (bareName cartTotal.name) = lower "total" := by decide +kernel
  have hfunction : lower (bareName plainTotal.name) = lower "total" := by decide +kernel
  refine ⟨fun hentry => ?_, ?_, ?_⟩
  · have hself :=
      (changed_found_iff taxDiff [cartTotal, plainTotal] [] 2 (hs _) mem_cons_self hmethod).1 hentry
    exact absurd hself (by decide +kernel)
  · have hmem : plainTotal ∈ [cartTotal, plainTotal] := mem_cons_of_mem _ mem_cons_self
    have hids : ([cartTotal, plainTotal].map (·.id)).Nodup := by decide +kernel
    exact ((changed_found_iff taxDiff _ [] 2 (hs _) hmem hfunction).2.2.1 hids).2
      (by decide +kernel)
  · refine (changed_found_iff taxDiff [cartTotal] [] 2 (hs _) mem_cons_self hmethod).2.2.2.2 ?_
    decide +kernel

end CodeAtlas.Change
