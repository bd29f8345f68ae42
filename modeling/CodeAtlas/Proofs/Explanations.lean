import CodeAtlas.Proofs.Cutting
import CodeAtlas.Proofs.Leading
import CodeAtlas.Proofs.Numerals
import CodeAtlas.Tool.Explorer
import CodeAtlas.Tool.Server

/-!
# One explanation for agents and for clients

The explorer and the server both explain a symbol. Without a vector store, version control and notes
both go through the same lines, but they leave out comments in different places: the server among
the symbols that it explains, the explorer among the neighbours of each. The two texts are therefore
the same exactly if neither place shows a comment (`explanations_eq_iff`). Read from the left, they
first differ at a line on a comment in one of them.
-/

namespace CodeAtlas.Report

open List Text

theorem take_filter_eq_take_iff {α : Type} (p : α → Bool) (l : List α) (k : Nat) :
    (l.filter p).take k = l.take k ↔ ∀ x ∈ l.take k, p x := by
  constructor
  · intro h x hx
    exact (mem_filter.1 (mem_of_mem_take (h ▸ hx))).2
  · intro h
    induction l generalizing k with
    | nil => rfl
    | cons a l ih =>
      cases k with
      | zero => rfl
      | succ k =>
        rw [take_succ_cons, forall_mem_cons] at h
        rw [filter_cons_of_pos h.1, take_succ_cons, take_succ_cons, ih k h.2]

variable {nodes : List Node} {edges : List Edge} {n x y : Node}

theorem isComment_of_take_filter {l xs : List Node} {k : Nat}
    (h : (l.filter fun m => !m.isComment).take k = x :: xs) : x.isComment = false := by
  have hmem : x ∈ (l.filter fun m => !m.isComment).take k := h ▸ mem_cons_self
  simpa using (mem_filter.1 (mem_of_mem_take hmem)).2

def shownNeighbours (a : Audience) (nodes : List Node) (n : Node) : List Node :=
  (neighbours a nodes n).take mostShown

theorem neighbours_agents (nodes : List Node) (n : Node) :
    neighbours .agents nodes n = (neighbours .clients nodes n).filter fun m => !m.isComment := by
  unfold neighbours
  dsimp only
  rw [filter_mergeSort, filter_filter]
  · congr 2
    funext m
    show (_ && _ && (false || !m.isComment)) = (!m.isComment && (_ && _ && (true || !m.isComment)))
    simp [Bool.and_comm]
  · intro a b c hab hbc
    simp only [Bool.or_eq_true, Bool.and_eq_true, decide_eq_true_eq, beq_iff_eq] at hab hbc ⊢
    omega
  · intro a b
    simp only [Bool.or_eq_true, Bool.and_eq_true, decide_eq_true_eq, beq_iff_eq]
    omega

theorem shownNeighbours_eq_iff (nodes : List Node) (n : Node) :
    shownNeighbours .agents nodes n = shownNeighbours .clients nodes n ↔
      ∀ m ∈ shownNeighbours .clients nodes n, m.isComment = false := by
  unfold shownNeighbours
  rw [neighbours_agents, take_filter_eq_take_iff]
  simp only [Bool.not_eq_true']

/-! ## Joined texts, read from the left

Paragraphs after the first are written with their separator in front, which lets them be
compared. -/

def following (sep : String) (pieces : List String) : List Char :=
  pieces.flatMap fun s => sep.toList ++ s.toList

@[simp] theorem following_nil (sep : String) : following sep [] = [] := rfl

theorem following_cons (sep s : String) (pieces : List String) :
    following sep (s :: pieces) = sep.toList ++ (s.toList ++ following sep pieces) := by
  rw [following, flatMap_cons, append_assoc, following]

theorem following_append (sep : String) (front rest : List String) :
    following sep (front ++ rest) = following sep front ++ following sep rest :=
  flatMap_append

theorem toList_join_cons (sep s : String) (rest : List String) :
    (join sep (s :: rest)).toList = s.toList ++ following sep rest := by
  induction rest generalizing s with
  | nil => simp [join]
  | cons t rest ih =>
    rw [join, String.toList_append, String.toList_append, ih, following_cons, append_assoc]
    exact cons_ne_nil t rest

theorem toList_join_append_following (sep : String) {front : List String} (hfront : front ≠ [])
    (rest : List String) :
    (join sep (front ++ rest)).toList = (join sep front).toList ++
      following sep rest := by
  obtain ⟨s, front, rfl⟩ := exists_cons_of_ne_nil hfront
  rw [cons_append, toList_join_cons, toList_join_cons, following_append, append_assoc]

variable {r r' : List Char} {a : Audience} {name : String}

theorem append_toString_inj {k k' : Nat}
    (h : (toString k).toList ++ ' ' :: r = (toString k').toList ++ ' ' :: r') : r = r' := by
  have hblank (r : List Char) : Json.NoDigit (' ' :: r) := Json.noDigit_cons (by decide)
  exact (List.cons.inj (Json.append_toString_inj (hblank r) (hblank r') h).2).2

theorem title_append_ne (hx : x.isComment = false) (hy : y.isComment) (u v : List Char) :
    (title x).toList ++ u ≠ (title y).toList ++ v := by
  unfold Node.isComment at hx hy
  unfold title
  generalize x.kind = k at hx
  generalize y.kind = k' at hy
  cases k' with
  | comment => cases k <;> simp_all [NodeKind.word]
  | _ => cases hy

def neighbourLine (s : Node) : String :=
  "  " ++ title s ++ visibilityTag s ++ " (line " ++ toString s.loc.first ++ ")"

theorem neighbourLines_of_nil (h : shownNeighbours a nodes n = []) :
    neighbourLines a nodes n = [] := by
  unfold shownNeighbours at h
  rw [neighbourLines, h]

theorem neighbourLines_of_ne_nil (h : shownNeighbours a nodes n ≠ []) :
    neighbourLines a nodes n =
      ("\nSiblings in " ++ n.loc.file ++ " (" ++ toString (shownNeighbours a nodes n).length ++
        " shown):") :: (shownNeighbours a nodes n).map neighbourLine := by
  unfold shownNeighbours at h ⊢
  rw [neighbourLines]
  split
  · rename_i hnil
    exact absurd hnil h
  · rfl

/-- What can follow the lines on neighbours: the end, or a paragraph with another first letter. -/
def EndsNeighbours (r : List Char) : Prop :=
  r = [] ∨ ∃ c r', c ≠ 'S' ∧ r = '\n' :: '\n' :: c :: r'

theorem EndsNeighbours.append (hr : EndsNeighbours r) (hr' : EndsNeighbours r') :
    EndsNeighbours (r ++ r') := by
  rcases hr with rfl | ⟨c, u, hc, rfl⟩
  · exact hr'
  · exact .inr ⟨c, u ++ r', hc, rfl⟩

/-- The lists of neighbours with and without comments are told apart by their lines. The induction
is on the list before comments are left out and before it is cut. -/
theorem neighbourLine_inj (S : List Node) (k : Nat) (hr : EndsNeighbours r)
    (h : following "\n" (((S.filter fun m => !m.isComment).take k).map neighbourLine) ++ r =
      following "\n" ((S.take k).map neighbourLine) ++ r') :
    (S.filter fun m => !m.isComment).take k = S.take k ∧ r = r' := by
  induction S generalizing k with
  | nil => exact ⟨rfl, by simpa using h⟩
  | cons y S ih =>
    cases k with
    | zero => exact ⟨rfl, h⟩
    | succ k =>
      by_cases hy : y.isComment
      · -- a line on a comment in the second text only
        exfalso
        rw [filter_cons_of_neg (by simp [hy]), take_succ_cons, map_cons, following_cons] at h
        cases hkept : (S.filter fun m => !m.isComment).take (k + 1) with
        | nil =>
          rw [hkept] at h
          rcases hr with rfl | ⟨c, u, -, rfl⟩
          · simp at h
          · simp [neighbourLine] at h
        | cons x xs =>
          rw [hkept, map_cons, following_cons] at h
          simp only [neighbourLine, String.toList_append, append_assoc, append_cancel_left_eq] at h
          exact title_append_ne (isComment_of_take_filter hkept) hy _ _ h
      · rw [filter_cons_of_pos (by simp [hy]), take_succ_cons, take_succ_cons, map_cons,
          map_cons, following_cons, following_cons, append_assoc, append_assoc, append_assoc,
          append_assoc, append_cancel_left_eq, append_cancel_left_eq] at h
        obtain ⟨hshown, hrest⟩ := ih k h
        exact ⟨by rw [filter_cons_of_pos (by simp [hy]), take_succ_cons, take_succ_cons,
          hshown], hrest⟩

theorem neighbourLines_inj (hr : EndsNeighbours r) (hr' : EndsNeighbours r')
    (h : following "\n" (neighbourLines .agents nodes n) ++ r =
      following "\n" (neighbourLines .clients nodes n) ++ r') :
    shownNeighbours .agents nodes n = shownNeighbours .clients nodes n ∧ r = r' := by
  have hheading {u : List Char} (hu : EndsNeighbours u) (s : String) (v : List Char) :
      u ≠ "\n".toList ++ (("\nSiblings in " ++ s).toList ++ v) := by
    rcases hu with rfl | ⟨c, u, hc, rfl⟩
    · simp
    · intro heq
      simp at heq
      exact hc heq.1
  by_cases hagents : shownNeighbours .agents nodes n = [] <;>
    by_cases hclients : shownNeighbours .clients nodes n = []
  · rw [neighbourLines_of_nil hagents, neighbourLines_of_nil hclients] at h
    exact ⟨hagents.trans hclients.symm, h⟩
  · rw [neighbourLines_of_nil hagents, neighbourLines_of_ne_nil hclients, following_cons] at h
    simp only [String.append_assoc, append_assoc] at h
    exact absurd h (hheading hr _ _)
  · rw [neighbourLines_of_ne_nil hagents, neighbourLines_of_nil hclients, following_cons] at h
    simp only [String.append_assoc, append_assoc] at h
    exact absurd h.symm (hheading hr' _ _)
  · rw [neighbourLines_of_ne_nil hagents, neighbourLines_of_ne_nil hclients, following_cons,
      following_cons] at h
    simp only [String.toList_append, append_assoc, append_cancel_left_eq] at h
    -- behind both counts stands the same rest of the heading
    have hlines :=
      append_cancel_left (append_toString_inj h : "shown):".toList ++ _ = "shown):".toList ++ _)
    unfold shownNeighbours at hlines ⊢
    rw [neighbours_agents] at hlines ⊢
    exact neighbourLine_inj _ _ hr hlines

/-! ## One symbol

An explanation is told apart from another one by its lines on neighbours. -/

def explanation (a : Audience) (nodes : List Node) (edges : List Edge) (n : Node) : String :=
  join "\n" (explainLines a (fun _ => "") nodes edges n)

def upperLines (nodes : List Node) (edges : List Edge) (n : Node) : List String :=
  ["=== " ++ title n ++ " ==="] ++ details n ++ relatedLines "Callers"
    (directCallers nodes (callEdgesOf edges) n) ++
    relatedLines "Callees" (directCallees nodes (callEdgesOf edges) n)

theorem toList_explanation (a : Audience) (nodes : List Node) (edges : List Edge) (n : Node) :
    (explanation a nodes edges n).toList = (join "\n" (upperLines nodes edges n)).toList ++
      (following "\n" (neighbourLines a nodes n) ++ following "\n" (commentHint nodes n)) := by
  have hlines : explainLines a (fun _ => "") nodes edges n =
      upperLines nodes edges n ++ (neighbourLines a nodes n ++ commentHint nodes n) := by
    have htrim : ([Text.trim ""].filter fun s => !s.isEmpty) = [] := by decide
    simp only [explainLines, upperLines, htrim, append_nil, append_assoc]
  rw [explanation, hlines, toList_join_append_following, following_append]
  exact cons_ne_nil _ _

theorem exists_toList_explanation (a : Audience) (nodes : List Node) (edges : List Edge)
    (n : Node) :
    ∃ u, (explanation a nodes edges n).toList = "=== ".toList ++ ((title n).toList ++ u) := by
  obtain ⟨u, hu⟩ := exists_toList_join_head "\n" ("=== " ++ title n ++ " ===") _
  rw [toList_explanation, upperLines, singleton_append, cons_append, cons_append, hu]
  simp only [String.toList_append, append_assoc]
  exact ⟨_, rfl⟩

theorem endsNeighbours_commentHint (nodes : List Node) (n : Node) :
    EndsNeighbours (following "\n" (commentHint nodes n)) := by
  rw [commentHint]
  split
  · exact .inl rfl
  · simp only [following_cons, String.toList_append, append_assoc]
    exact .inr ⟨'C', _, by decide, rfl⟩

theorem endsNeighbours_explanations (a : Audience) (nodes : List Node) (edges : List Edge)
    (found : List Node) :
    EndsNeighbours (following "\n\n" (found.map (explanation a nodes edges))) := by
  cases found with
  | nil => exact .inl rfl
  | cons n found =>
    obtain ⟨u, hu⟩ := exists_toList_explanation a nodes edges n
    rw [map_cons, following_cons, hu]
    exact .inr ⟨'=', _, by decide, rfl⟩

theorem explanation_append_eq_iff (hr : EndsNeighbours r) (hr' : EndsNeighbours r') :
    (explanation .agents nodes edges n).toList ++ r = (explanation .clients nodes edges n).toList ++
      r' ↔ shownNeighbours .agents nodes n = shownNeighbours .clients nodes n ∧ r = r' := by
  simp only [toList_explanation, append_assoc, append_cancel_left_eq]
  constructor
  · intro h
    have hhint := endsNeighbours_commentHint nodes n
    obtain ⟨hshown, hrest⟩ := neighbourLines_inj (hhint.append hr) (hhint.append hr') h
    exact ⟨hshown, append_cancel_left hrest⟩
  · rintro ⟨hshown, rfl⟩
    have hlines : neighbourLines .agents nodes n = neighbourLines .clients nodes n := by
      unfold shownNeighbours at hshown
      rw [neighbourLines, hshown, neighbourLines]
    rw [hlines]

/-- Explanations of the first nodes of a list against those of its first symbols. The induction is
on the list before it is cut. -/
theorem following_explanations_eq_iff (nodes : List Node) (edges : List Edge) (B : List Node)
    (k : Nat) :
    following "\n\n" ((B.take k).map (explanation .agents nodes edges)) =
        following "\n\n"
          (((B.filter fun m => !m.isComment).take k).map (explanation .clients nodes edges)) ↔
      ∀ n ∈ B.take k, n.isComment = false ∧
        shownNeighbours .agents nodes n = shownNeighbours .clients nodes n := by
  induction B generalizing k with
  | nil => simp
  | cons m B ih =>
    cases k with
    | zero => simp
    | succ k =>
      rw [take_succ_cons, map_cons, following_cons, forall_mem_cons]
      by_cases hm : m.isComment
      · -- the agents' text begins with a comment and the clients' text does not
        refine iff_of_false (fun h => ?_) (fun h => by simp [hm] at h)
        rw [filter_cons_of_neg (by simp [hm])] at h
        obtain ⟨u, hu⟩ := exists_toList_explanation .agents nodes edges m
        rw [hu] at h
        cases hkept : (B.filter fun m => !m.isComment).take (k + 1) with
        | nil => simp [hkept] at h
        | cons x xs =>
          obtain ⟨v, hv⟩ := exists_toList_explanation .clients nodes edges x
          rw [hkept, map_cons, following_cons, hv] at h
          simp only [append_assoc, append_cancel_left_eq] at h
          exact title_append_ne (isComment_of_take_filter hkept) hm _ _ h.symm
      · have hm : m.isComment = false := by simpa using hm
        rw [filter_cons_of_pos (by simp [hm]), take_succ_cons, map_cons, following_cons,
          append_cancel_left_eq, explanation_append_eq_iff (endsNeighbours_explanations ..)
            (endsNeighbours_explanations ..), ih k]
        simp [hm]

/-- The nodes from which the explained ones are taken: the symbols with a name or else all nodes
that mention it. -/
def candidates (nodes : List Node) (name : String) : List Node :=
  match nodesNamed (symbolsOf nodes) name with
  | [] => nodesMentioning nodes name
  | found => found

theorem explained_agents (nodes : List Node) (name : String) :
    explained .agents nodes name = (candidates nodes name).take 5 := by
  rw [explained, candidates]
  cases nodesNamed (symbolsOf nodes) name <;> rfl

theorem explained_clients (nodes : List Node) (name : String) :
    explained .clients nodes name = ((candidates nodes name).filter fun m => !m.isComment).take
      5 := by
  rw [explained, candidates]
  cases hnamed : nodesNamed (symbolsOf nodes) name with
  | nil =>
    show (nodesMentioning (symbolsOf nodes) name).take 5 = _
    rw [nodesMentioning, symbolsOf, filter_comm, nodesMentioning]
  | cons n found =>
    have hsymbols : ∀ m ∈ n :: found, (!m.isComment) := by
      intro m hm
      rw [← hnamed] at hm
      exact (mem_filter.1 (mem_filter.1 hm).1).2
    rw [filter_eq_self.2 hsymbols]

theorem mem_of_mem_explained (h : n ∈ explained a nodes name) : n ∈ nodes := by
  have hcandidates : ∀ {n}, n ∈ candidates nodes name → n ∈ nodes := by
    intro n hn
    rw [candidates] at hn
    split at hn
    · exact mem_of_mem_filter hn
    · exact mem_of_mem_filter (mem_of_mem_filter hn)
  cases a with
  | agents => exact hcandidates (mem_of_mem_take (explained_agents nodes name ▸ h))
  | clients =>
    exact hcandidates (mem_of_mem_filter (mem_of_mem_take (explained_clients nodes name ▸ h)))

/-- The report on a symbol where nothing is known from elsewhere. -/
def explanations (a : Audience) (nodes : List Node) (edges : List Edge) (name : String) : String :=
  match explained a nodes name with
  | [] => notExplained name
  | found => join "\n\n" (found.map (explanation a nodes edges))

theorem explanations_of_nil (h : explained a nodes name = []) :
    explanations a nodes edges name = notExplained name := by
  rw [explanations, h]

theorem toList_explanations_of_cons {found : List Node} (h : explained a nodes name = n :: found) :
    (explanations a nodes edges name).toList =
      (explanation a nodes edges n).toList ++ following "\n\n"
        (found.map (explanation a nodes edges)) := by
  simp only [explanations, h, map_cons, toList_join_cons]

theorem toList_explanations (h : explained a nodes name ≠ []) :
    "\n\n".toList ++ (explanations a nodes edges name).toList =
      following "\n\n" ((explained a nodes name).map (explanation a nodes edges)) := by
  obtain ⟨n, found, hfound⟩ := exists_cons_of_ne_nil h
  rw [toList_explanations_of_cons hfound, hfound, map_cons, following_cons]

/-- Agents and clients are told the same exactly if no comment is involved. -/
theorem explanations_eq_iff (nodes : List Node) (edges : List Edge) (name : String) :
    explanations .agents nodes edges name = explanations .clients nodes edges name ↔
      ∀ n ∈ explained .agents nodes name,
        n.isComment = false ∧ ∀ m ∈ shownNeighbours .clients nodes n, m.isComment = false := by
  have hiff := following_explanations_eq_iff nodes edges (candidates nodes name) 5
  rw [← explained_agents, ← explained_clients] at hiff
  simp only [shownNeighbours_eq_iff] at hiff
  rw [← hiff, ← String.toList_inj]
  by_cases hagents : explained .agents nodes name = []
  · -- without candidates there is nothing for clients either
    have hcandidates : candidates nodes name = [] := by
      rw [explained_agents] at hagents
      simpa using hagents
    have hclients : explained .clients nodes name =
      [] := by rw [explained_clients, hcandidates]; rfl
    rw [explanations_of_nil hagents, explanations_of_nil hclients, hagents, hclients, map_nil,
      map_nil]
    exact iff_of_true rfl rfl
  · by_cases hclients : explained .clients nodes name = []
    · -- an explanation begins with `=`, the remark that there is none with `S`
      obtain ⟨n, found, hfound⟩ := exists_cons_of_ne_nil hagents
      obtain ⟨u, hu⟩ := exists_toList_explanation .agents nodes edges n
      rw [explanations_of_nil hclients, hclients, toList_explanations_of_cons hfound, hfound,
        map_cons, following_cons, hu]
      exact iff_of_false (by simp [notExplained]) (by simp)
    · rw [← toList_explanations hagents, ← toList_explanations hclients, append_cancel_left_eq]

end CodeAtlas.Report

namespace CodeAtlas.Tool

open Report

theorem mapM_eq_pure_map {m : Type → Type} [Monad m] [LawfulMonad m] {α β : Type} {f : α → m β}
    {g : α → β} {xs : List α} (h : ∀ x ∈ xs, f x = pure (g x)) : xs.mapM f = pure (xs.map g) := by
  induction xs with
  | nil => rfl
  | cons x xs ih =>
    rw [List.forall_mem_cons] at h
    rw [List.mapM_cons, h.1, ih h.2, pure_bind, pure_bind, List.map_cons]

variable {s : Server} {h : Host}

/-- A server that knows nothing from elsewhere explains a symbol from its graph alone. -/
theorem Server.explainSymbol_eq_pure (name : String) (hcatalog : s.catalog = none)
    (hsystem : s.system = none) (hnotes : ∀ n ∈ s.graph.nodes, s.noteLine h n = "") :
    s.explainSymbol h name = pure (explanations .clients s.graph.nodes s.graph.edges name) := by
  rw [Server.explainSymbol, explanations]
  cases hfound : explained .clients s.graph.nodes name with
  | nil => rfl
  | cons n found =>
    dsimp only
    rw [mapM_eq_pure_map (g := explanation .clients s.graph.nodes s.graph.edges), pure_bind,
      Server.withAdvice, hcatalog]
    · rfl
    · intro m hm
      have hmem : m ∈ s.graph.nodes := mem_of_mem_explained (hfound ▸ hm)
      have hcommits : s.recentCommits h.now m.loc.file = pure [] := by
        rw [Server.recentCommits, hsystem]
      rw [hcommits, pure_bind, explanation, explainLines, hnotes m hmem]
      simp [recentLines, explainLines]

/-- The explorer and a server without a vector store, version control and notes both explain every
name, and they say the same exactly if no explained node and no neighbour that clients are shown is
a comment. -/
theorem explainSymbol_answers_eq_iff (e : Explorer) (s : Server) (h : Host) (services : Services)
    (name : String)
    (hgraph : e.graph = s.graph) (hcatalog : s.catalog = none) (hsystem : s.system = none)
    (hnotes : ∀ n ∈ s.graph.nodes, s.noteLine h n = "") :
    ∃ forAgents forClients,
      (e.answer h (.explainSymbol name)).run.run services = (.ok forAgents, services) ∧
      (s.answer h (.explainSymbol name)).run.run services = (.ok forClients, services) ∧
      (forAgents = forClients ↔ ∀ n ∈ explained .agents s.graph.nodes name,
        n.isComment = false ∧ ∀ m ∈ shownNeighbours .clients s.graph.nodes n,
          m.isComment = false) := by
  refine ⟨explanations .agents e.graph.nodes e.graph.edges name,
    explanations .clients s.graph.nodes s.graph.edges name, rfl, ?_, ?_⟩
  · show (s.explainSymbol h name).run.run services = _
    rw [Server.explainSymbol_eq_pure name hcatalog hsystem hnotes]
    rfl
  · rw [hgraph]
    exact explanations_eq_iff s.graph.nodes s.graph.edges name

def commentedGraph : Index.Graph where
  nodes :=
    [{ id := "c", kind := .comment, name := "# helper",
       loc := { file := "a.py", first := 1, last := 1 }, language := "python" },
     { id := "f", kind := .function, name := "f", loc := { file := "a.py", first := 2, last := 3 }
       language := "python" },
     { id := "g", kind := .function, name := "g", loc := { file := "b.py", first := 1, last := 2 }
       language := "python" }]

def commentedExplorer : Explorer :=
  { root := ⟨true, ["p"]⟩, readers := ⟨[]⟩, graph := commentedGraph }

def commentedServer : Server :=
  { root := ⟨true, ["p"]⟩, config := {}, readers := ⟨[]⟩, graph := commentedGraph }

/-- Clients see the comment beside `f`, and only agents get it for its own words. -/
theorem explainSymbol_answers_eq_iff_commented :
    (∃ text, (commentedExplorer.answer {} (.explainSymbol "g")).run.run {} = (.ok text, {}) ∧
      (commentedServer.answer {} (.explainSymbol "g")).run.run {} = (.ok text, {})) ∧
    ∀ name ∈ ["f", "helper"], ∃ forAgents forClients,
      (commentedExplorer.answer {} (.explainSymbol name)).run.run {} = (.ok forAgents, {}) ∧
      (commentedServer.answer {} (.explainSymbol name)).run.run {} = (.ok forClients, {}) ∧
      forAgents ≠ forClients := by
  have hiff (name : String) :=
    explainSymbol_answers_eq_iff commentedExplorer commentedServer {} {} name rfl rfl rfl
    (fun _ _ => rfl)
  constructor
  · obtain ⟨forAgents, forClients, hagents, hclients, hsame⟩ := hiff "g"
    have heq : forAgents = forClients := hsame.2 (by decide +kernel)
    exact ⟨forAgents, hagents, heq ▸ hclients⟩
  · intro name hname
    have hcomment : ∀ name ∈ ["f", "helper"], ¬ ∀ n ∈ explained .agents commentedGraph.nodes name,
        n.isComment = false ∧ ∀ m ∈ shownNeighbours .clients commentedGraph.nodes n,
          m.isComment = false := by
      decide +kernel
    obtain ⟨forAgents, forClients, hagents, hclients, hsame⟩ := hiff name
    exact ⟨forAgents, forClients, hagents, hclients, fun heq => hcomment name hname (hsame.1 heq)⟩

end CodeAtlas.Tool
