import CodeAtlas.Proofs.CommentTexts
import CodeAtlas.Proofs.ReadingOrder

/-!
# Comments and the symbols around them

Comments are found with a stack. By `sweep_eq` what lies on it is what is still to be read, so
comments are found in reading order and each of them once. A comment belongs to the shortest symbol
around its first line. Shortest need not be innermost, but it is where symbols are properly nested.
-/

namespace CodeAtlas

open List
open Source (Tree)

/-! ## Ranges of lines

The symbol of a comment is the shortest one around its first line. Where symbols nest, that is the
innermost. -/

def Location.Covers (l : Location) (line : Int) : Prop :=
  l.first ≤ line ∧ line ≤ l.last

def Location.Within (inner outer : Location) : Prop :=
  outer.first ≤ inner.first ∧ inner.last ≤ outer.last

instance (inner outer : Location) : Decidable (inner.Within outer) :=
  inferInstanceAs (Decidable (outer.first ≤ inner.first ∧ inner.last ≤ outer.last))

namespace Extract

/-- Of two symbols that share a line, one lies within the other. -/
def ProperlyNested (symbols : List Node) : Prop :=
  ∀ m ∈ symbols, ∀ n ∈ symbols, (∃ line, m.loc.Covers line ∧ n.loc.Covers line) →
    m.loc.Within n.loc ∨ n.loc.Within m.loc

structure Innermost (symbols : List Node) (line : Int) (m : Node) : Prop where
  mem : m ∈ symbols
  covers : m.loc.Covers line
  within : ∀ n ∈ symbols, n.loc.Covers line → m.loc.Within n.loc

theorem exists_firstMin? {α : Type} (measure : α → Int) (a : α) (rest : List α) :
    ∃ m ∈ a :: rest, firstMin? measure (a :: rest) = some m ∧ ∀ b ∈ a :: rest,
      measure m ≤ measure b := by
  induction rest generalizing a with
  | nil => exact ⟨a, mem_cons_self, rfl, fun b hb => Int.le_of_eq
      (congrArg measure (mem_singleton.1 hb).symm)⟩
  | cons b rest ih =>
    obtain ⟨m, hm, hfirst, hleast⟩ := ih b
    rw [firstMin?, hfirst]
    by_cases hlt : measure m < measure a
    · refine ⟨m, mem_cons_of_mem a hm, if_pos hlt, fun c hc => ?_⟩
      rcases mem_cons.1 hc with rfl | hc
      · exact Int.le_of_lt hlt
      · exact hleast c hc
    · refine ⟨a, mem_cons_self, if_neg hlt, fun c hc => ?_⟩
      rcases mem_cons.1 hc with rfl | hc
      · exact Int.le_refl _
      · exact Int.le_trans (Int.not_lt.1 hlt) (hleast c hc)

variable {symbols : List Node} {line : Int}

/-- Around a line that some symbol covers there is a shortest one, and this is the one that is
taken. -/
theorem exists_enclosingSymbol {n : Node} (hn : n ∈ symbols) (hline : n.loc.Covers line) :
    ∃ m ∈ symbols, enclosingSymbol line symbols = some m ∧ m.loc.Covers line ∧
      ∀ n ∈ symbols, n.loc.Covers line → m.loc.last - m.loc.first ≤ n.loc.last - n.loc.first := by
  have hmem (m : Node) : m ∈ symbols.filter (fun n => n.loc.first ≤ line && line ≤ n.loc.last) ↔
      m ∈ symbols ∧ m.loc.Covers line := by
    simp [Location.Covers]
  unfold enclosingSymbol
  dsimp only
  generalize symbols.filter (fun n => n.loc.first ≤ line && line ≤ n.loc.last) = around at hmem
  cases around with
  | nil => exact absurd ((hmem n).2 ⟨hn, hline⟩) not_mem_nil
  | cons a rest =>
    obtain ⟨m, hm, hfirst, hleast⟩ :=
      exists_firstMin? (fun n : Node => n.loc.last - n.loc.first) a rest
    obtain ⟨hsymbol, hcovers⟩ := (hmem m).1 hm
    refine ⟨m, hsymbol, by rw [hfirst], hcovers, fun n hn hline => ?_⟩
    exact hleast n ((hmem n).2 ⟨hn, hline⟩)

/-- Where symbols are nested, the shortest symbol around a line lies within all others around it. -/
theorem ProperlyNested.exists_innermost (hnested : ProperlyNested symbols) {n : Node}
    (hn : n ∈ symbols) (hline : n.loc.Covers line) :
    ∃ m, enclosingSymbol line symbols = some m ∧ Innermost symbols line m := by
  obtain ⟨m, hm, hfound, hcovers, hshortest⟩ := exists_enclosingSymbol hn hline
  refine ⟨m, hfound, hm, hcovers, fun k hk hkline => ?_⟩
  rcases hnested m hm k hk ⟨line, hcovers, hkline⟩ with hwithin | hwithin
  · exact hwithin
  · -- no symbol around the line is shorter, so that both have the same lines
    have hlength := hshortest k hk hkline
    obtain ⟨hfirst, hlast⟩ := hwithin
    exact ⟨by omega, by omega⟩

variable {s : Site} {u : Tree}

/-- A comment of which enough text is left when its markers are taken off. -/
def Site.Worded (s : Site) (kinds : List String) (u : Tree) : Prop :=
  u.kind ∈ kinds ∧ ∃ raw, s.parsed.text u = .ok raw ∧ 3 ≤ (commentText raw).length

/-- The node of a comment. Nothing is said of its symbol if there is none around its first line, or
if the symbols are not properly nested. -/
structure TellsOf (s : Site) (symbols : List Node) (u : Tree) (n : Node) : Prop where
  kind : n.kind = .comment
  loc : n.loc = s.locate u
  language : n.language = s.language
  name : ∃ raw, s.parsed.text u = .ok raw ∧ n.name = Text.cut longestComment (commentText raw)
  parent : ProperlyNested symbols → ∀ k ∈ symbols, k.loc.Covers n.loc.first →
    ∃ m, Innermost symbols n.loc.first m ∧ n.traits.parentSymbol = m.name

theorem worded_of_commentNode {n : Node} {kinds : List String} (hkind : u.kind ∈ kinds)
    (h : commentNode s symbols u = .ok (some n)) : s.Worded kinds u ∧ TellsOf s symbols u n := by
  obtain ⟨raw, hraw, hnode⟩ := bind_eq_ok_iff.1 h
  by_cases hshort : (commentText raw).length < shortestComment
  · rw [if_pos hshort] at hnode
    cases hnode
  · rw [if_neg hshort] at hnode
    obtain rfl := Option.some.inj (Except.ok.inj hnode)
    refine ⟨⟨hkind, raw, hraw, Nat.not_lt.1 hshort⟩, rfl, rfl, rfl, ⟨raw, hraw, rfl⟩,
      fun hnested k hk hline => ?_⟩
    obtain ⟨m, hfound, hm⟩ := hnested.exists_innermost hk hline
    refine ⟨m, hm, ?_⟩
    rw [show enclosingSymbol (s.parsed.firstLine u) symbols = some m from hfound]

theorem commentTrees_inOrder (kinds : List String) (root : Tree) :
    root.InOrder (·.kind ∈ kinds) Eq (commentTrees kinds root) := by
  rw [commentTrees_eq, ← filterMap_eq_filter]
  refine Tree.inOrder_filterMap (fun u _ => ?_) fun u _ v hv => ?_
  · simp [Option.guard]
  · exact (Option.guard_eq_some_iff.1 hv).1

/-- **Comments are found once, in order, and belong to the innermost symbol.** Whatever the tree,
the search ends with the tree nodes of the given kinds, by growing address. The comments of a file
are read if each of them is text. Then there is one node for each that is long enough when its
markers are taken off, by growing address again. If the symbols are properly nested and one of them
is around the first line of the comment, then the node names the innermost one. -/
theorem comments_inOrder (s : Site) (kinds : List String) (symbols : List Node) :
    s.parsed.root.InOrder (·.kind ∈ kinds) Eq (commentTrees kinds s.parsed.root) ∧
    (Returns (comments s kinds symbols) ↔
      ∀ u ∈ commentTrees kinds s.parsed.root, Returns (s.parsed.text u)) ∧
    ∀ found, comments s kinds symbols = .ok found →
      s.parsed.root.InOrder (s.Worded kinds) (TellsOf s symbols) found := by
  refine ⟨commentTrees_inOrder kinds _, ⟨?_, ?_⟩, fun found hfound => ?_⟩
  · rintro ⟨found, hfound⟩ u hu
    obtain ⟨node?, hnode⟩ := (collect_eq_ok hfound).1 u hu
    obtain ⟨raw, hraw, -⟩ := bind_eq_ok_iff.1 hnode
    exact ⟨raw, hraw⟩
  · exact fun hread => .collect fun u hu => .commentNode (hread u hu)
  · have hgive (u : Tree) (n : Node) :
        (if kinds.contains u.kind then (commentNode s symbols u).toOption.join else none) = some n ↔
          u.kind ∈ kinds ∧ commentNode s symbols u = .ok (some n) := by
      rw [Option.ite_none_right_eq_some, contains_iff_mem, join_toOption_eq_some_iff]
    rw [(collect_eq_ok hfound).2, commentTrees_eq, filterMap_filter]
    refine Tree.inOrder_filterMap (fun u _ => ?_) fun u _ n hn => ?_
    · rw [Option.isSome_iff_exists]
      constructor
      · rintro ⟨n, hn⟩
        obtain ⟨hkind, hnode⟩ := (hgive u n).1 hn
        exact (worded_of_commentNode hkind hnode).1
      · rintro ⟨hkind, raw, hraw, hlong⟩
        obtain ⟨n, hnode, -⟩ := exists_commentNode hraw hlong
        exact ⟨n, (hgive u n).2 ⟨hkind, hnode⟩⟩
    · obtain ⟨hkind, hnode⟩ := (hgive u n).1 hn
      exact (worded_of_commentNode hkind hnode).2

def notedMethod : Tree :=
  .node "method_definition" 25 45
    [.node "statement_block" 29 45 [.node "comment" 31 38 [], .node "comment" 39 43 []]]

def notedClass : Tree :=
  .node "class_declaration" 7 55
    [.node "class_body" 15 55 [.node "comment" 17 24 [], notedMethod, .node "comment" 46 53 []]]

def notedSite : Site :=
  ⟨"a.js", "javascript", ⟨Text.Utf8.encode
    "// top\nclass A \x7b\n// in A\nf() \x7b // in f\n// x\n\x7d\n// more\n\x7d",
    .node "program" 0 55 [.node "comment" 0 6 [], notedClass]⟩⟩

def notedSymbols : List Node :=
  [notedSite.symbol .classDecl "A" notedClass, notedSite.symbol .method "f" notedMethod]

/-- A comment above a class, one in it, two in its method, of which one is too short, and one after
the method. -/
theorem comments_inOrder_notedSite : ProperlyNested notedSymbols ∧
    ∃ found, comments notedSite ["comment"] notedSymbols = .ok found ∧
      notedSite.parsed.root.InOrder (notedSite.Worded ["comment"])
        (TellsOf notedSite notedSymbols) found ∧
      found.map (fun n => (n.name, n.traits.parentSymbol)) =
        [("top", ""), ("in A", "A"), ("in f", "f"), ("more", "A")] := by
  have hnested :
      ∀ m ∈ notedSymbols, ∀ n ∈ notedSymbols, m.loc.Within n.loc ∨ n.loc.Within m.loc := by
    decide +kernel
  have hshown : (comments notedSite ["comment"] notedSymbols).toOption.map
      (·.map fun n => (n.name, n.traits.parentSymbol)) =
      some [("top", ""), ("in A", "A"), ("in f", "f"), ("more", "A")] := by
    decide +kernel
  obtain ⟨found, hfound, hshown⟩ := Option.map_eq_some_iff.1 hshown
  have hfound := eq_ok_of_toOption hfound
  refine ⟨fun m hm n hn _ => hnested m hm n hn, found, hfound, ?_, hshown⟩
  exact (comments_inOrder notedSite ["comment"] notedSymbols).2.2 found hfound

end Extract

end CodeAtlas
