import Mathlib.Data.List.Forall2
import CodeAtlas.Tool.Shared

/-!
# A search over the prebuilt index

A search that is given an index looks at columns and never at nodes: it picks positions, scores the
tokens that stand there, and leads every rank back to its position. A search without an index looks
at the nodes themselves.

What is read at positions is what is read off candidates (`map_positions`), so both rankings are
made from the same corpus and the same results.
-/

namespace CodeAtlas.Search

namespace WordIndex

/-- A position of the index stands for a node, column by column. -/
structure Stands (x : WordIndex) (i : Fin x.size) (n : Node) : Prop where
  id : x.ids.get i = n.id
  shown : x.shown.get i = shownFields n
  tokens : x.tokens.get i = tokenize (nodeText n)
  language : x.languages.get i = n.language
  kind : x.kinds.get i = n.kind.word

theorem Stands.push {x : WordIndex} {i : Fin x.size} {m : Node} (hi : x.Stands i m) (n : Node) :
    (x.push n).Stands i.castSucc m := by
  have hlt : i.val < x.size := i.isLt
  constructor
  · show (x.ids.push n.id)[i.val] = m.id
    rw [Vector.getElem_push_lt hlt]
    exact hi.id
  · show (x.shown.push (shownFields n))[i.val] = shownFields m
    rw [Vector.getElem_push_lt hlt]
    exact hi.shown
  · show (x.tokens.push (tokenize (nodeText n)))[i.val] = tokenize (nodeText m)
    rw [Vector.getElem_push_lt hlt]
    exact hi.tokens
  · show (x.languages.push n.language)[i.val] = m.language
    rw [Vector.getElem_push_lt hlt]
    exact hi.language
  · show (x.kinds.push n.kind.word)[i.val] = m.kind.word
    rw [Vector.getElem_push_lt hlt]
    exact hi.kind

theorem stands_push_last (x : WordIndex) (n : Node) : (x.push n).Stands (Fin.last x.size) n :=
  ⟨Vector.getElem_push_last, Vector.getElem_push_last, Vector.getElem_push_last,
    Vector.getElem_push_last, Vector.getElem_push_last⟩

/-- The positions of the index stand for the nodes, one for one and in order. -/
def Represents (x : WordIndex) (nodes : List Node) : Prop :=
  List.Forall₂ x.Stands (List.finRange x.size) nodes

theorem Represents.push {x : WordIndex} {nodes : List Node} (hx : x.Represents nodes) (n : Node) :
    (x.push n).Represents (nodes ++ [n]) := by
  show List.Forall₂ _ (List.finRange (x.size + 1)) _
  rw [List.finRange_succ_last]
  apply List.rel_append
  · exact List.forall₂_map_left_iff.2 (List.Forall₂.imp (fun i m hi => hi.push n) hx)
  · exact .cons (x.stands_push_last n) .nil

/-- Building goes through the nodes once; what it has pushed so far represents the symbols met so
far. -/
theorem Represents.foldl {x : WordIndex} {symbols : List Node} (hx : x.Represents symbols)
    (nodes : List Node) :
    (nodes.foldl (fun x n => if n.isComment then x else x.push n) x).Represents
      (symbols ++ symbolsOf nodes) := by
  induction nodes generalizing x symbols with
  | nil => simpa [symbolsOf] using hx
  | cons n rest ih =>
    rw [List.foldl_cons]
    by_cases hn : n.isComment
    · have hsymbols : symbolsOf (n :: rest) = symbolsOf rest := by simp [symbolsOf, hn]
      rw [if_pos hn, hsymbols]
      exact ih hx
    · have hsymbols : symbols ++ symbolsOf (n :: rest) = (symbols ++ [n]) ++ symbolsOf rest := by
        simp [symbolsOf, hn]
      rw [if_neg hn, hsymbols]
      exact ih (hx.push n)

end WordIndex

/-- The positions of a built index stand for the symbols, one for one and in order. -/
theorem stands_buildIndex (nodes : List Node) :
    (buildIndex nodes).Represents (symbolsOf nodes) := by
  have hempty : WordIndex.empty.Represents [] := .nil
  exact hempty.foldl nodes

theorem candidates_eq (nodes : List Node) (scope : Scope) :
    candidates nodes scope = (symbolsOf nodes).filter fun n => scope.admits n.language
      n.kind.word := by
  rw [symbolsOf, List.filter_filter]
  exact List.filter_congr fun n _ => Bool.and_comm _ _

/-- The same for the positions in a scope and the candidates in that scope. Comments, which the
index does not hold, are the ones that candidates leave out. -/
theorem stands_positions (nodes : List Node) (scope : Scope) :
    List.Forall₂ (buildIndex nodes).Stands ((buildIndex nodes).positions scope)
      (candidates nodes scope) := by
  rw [candidates_eq]
  refine List.rel_filter ?_ (stands_buildIndex nodes)
  -- language and kind are read from columns on one side and from the node on the other
  intro i n hi
  show scope.admits ((buildIndex nodes).languages.get i) ((buildIndex nodes).kinds.get i) ↔ _
  rw [hi.language, hi.kind]

/-- What is read at the positions in a scope is what is read off the candidates, if it is so for
each position and the node that it stands for. -/
theorem map_positions {α : Type} (nodes : List Node) (scope : Scope)
    {f : Fin (buildIndex nodes).size → α}
    {g : Node → α} (hfg : ∀ i n, (buildIndex nodes).Stands i n → f i = g n) :
    ((buildIndex nodes).positions scope).map f = (candidates nodes scope).map g := by
  rw [← List.forall₂_eq_eq_eq, List.forall₂_map_left_iff, List.forall₂_map_right_iff]
  exact List.Forall₂.imp hfg (stands_positions nodes scope)

/-- Ranking over the index is ranking over the nodes. -/
theorem rankIndexed_buildIndex (nodes : List Node) (scope : Scope) (query : String) (pool : Int) :
    rankIndexed (buildIndex nodes) scope query pool = rankNodes nodes scope query pool := by
  have hcorpus : ((buildIndex nodes).positions scope).map (fun i => (buildIndex nodes).tokens[i]) =
      (candidates nodes scope).map fun n => tokenize (nodeText n) :=
    map_positions nodes scope fun i n hi => hi.tokens
  rw [rankIndexed, rankNodes, hcorpus]
  -- the scores are the same, so it is left to lead each rank back
  congr 1
  funext ⟨score, rank⟩
  have hresults : ((buildIndex nodes).positions scope).map (fun i => ((buildIndex nodes).ids[i],
        withScore (buildIndex nodes).shown[i] score)) =
      (candidates nodes scope).map fun n => (n.id, withScore (shownFields n) score) := by
    refine map_positions nodes scope fun i n hi => ?_
    show ((buildIndex nodes).ids.get i, withScore ((buildIndex nodes).shown.get i) score) = _
    rw [hi.id, hi.shown]
  dsimp only
  rw [← List.getElem?_map, hresults, List.getElem?_map]

end CodeAtlas.Search

namespace CodeAtlas.Tool

/-- **A prebuilt index changes nothing but the time a search takes.** For all nodes and any
question, limit and scope, with a vector store or without one, a search over the index that was
built from the nodes gives the results of a search over the nodes: the same fields and scores in the
same order. It also fails where that one fails, and leaves the services in the same state. -/
theorem searchHybrid_buildIndex (catalog? : Option Vector.Catalog) (nodes : List Node)
    (text : String) (limit : Int) (scope : Search.Scope) :
    searchHybrid catalog? (some (Search.buildIndex nodes)) nodes text limit scope =
      searchHybrid catalog? none nodes text limit scope := by
  have hwords : Search.rankWith (some (Search.buildIndex nodes)) nodes scope text
      (limit * Search.poolFactor) =
      Search.rankWith none nodes scope text (limit * Search.poolFactor) :=
    Search.rankIndexed_buildIndex nodes scope text (limit * Search.poolFactor)
  simp only [searchHybrid, hwords]

end CodeAtlas.Tool
